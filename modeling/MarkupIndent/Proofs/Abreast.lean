import Mathlib.Data.Option.Basic
import MarkupIndent.Proofs.Cuts
import MarkupIndent.Proofs.Matched
import MarkupIndent.Proofs.Spans

/-!
# Reading a mended text

A text and its mended form are read abreast: whatever piece the one has next, the other has it too,
and after both pieces the two readings are abreast again. So the pieces are made of tokens of the
same kinds, which begin at places of each other.

Blanks at the beginning of the text may be gone from its mended form, and may have come there, so
each of the two may have some more tokens before all others: `k` the text and `k'` the mended one.

* `Kin`: tokens of each other.
* `Pairing`: what is known of two texts that are read abreast, as far as they are read.
* `Abreast`: readings of each other.
* `abreast_skip`, `abreast_emit`: both steps keep readings abreast, if they end at places of each
  other; `abreast_run` does so for stretches.
* `abreast_readMustache`, `abreast_readStartTag` and the like: so does every piece of markup.
-/

namespace MarkupIndent.Markup

open Margin Text

/-! ## Pieces after more tokens -/

/-- The mustache after `k` more tokens. -/
def Mustache.moved (k : Nat) (m : Mustache) : Mustache :=
  { m with first := m.first + k, last := m.last + k }

/-- The attribute after `k` more tokens. -/
def Attribute.moved (k : Nat) (a : Attribute) : Attribute where
  first := a.first + k
  last := a.last + k
  key := a.key.map (· + k)
  values := a.values.map (Mustache.moved k)

/-- The start tag after `k` more tokens. -/
def StartTag.moved (k : Nat) (t : StartTag) : StartTag :=
  { t with
    first := t.first + k
    last := t.last + k
    name := t.name + k
    attributes := t.attributes.map (Attribute.moved k) }

/-- The end tag after `k` more tokens. -/
def EndTag.moved (k : Nat) (t : EndTag) : EndTag :=
  ⟨t.first + k, t.last + k⟩

/-- The block tag after `k` more tokens. -/
def BlockTag.moved (k : Nat) (t : BlockTag) : BlockTag :=
  { t with first := t.first + k, last := t.last + k }

theorem Mustache.moved_zero : Mustache.moved 0 = id := rfl

theorem Attribute.moved_zero : Attribute.moved 0 = id := by
  funext a
  simp [Attribute.moved, Mustache.moved_zero]

theorem StartTag.moved_zero (t : StartTag) : t.moved 0 = t := by
  simp [StartTag.moved, Attribute.moved_zero]

theorem EndTag.moved_zero : EndTag.moved 0 = id := rfl

theorem BlockTag.moved_zero (t : BlockTag) : t.moved 0 = t := rfl

/-! ## Tokens and readings of each other -/

/-- Tokens of one kind that begin at places of each other in a text and its mended form, and are
of each other themselves. -/
structure Kin (es : List Edit) (source mended : List Char) (t t' : Token) : Prop where
  kind : t.kind = t'.kind
  start : Mended es (-1) ('\n' :: source.take t.start) ('\n' :: mended.take t'.start)
  slice : Mended es t.start t.text t'.text

/-- Tokens of one kind that say the same if they are names or literals. -/
structure SameWord (t t' : Token) : Prop where
  kind : t.kind = t'.kind
  text : t.kind = .name ∨ t.kind = .literal → t.text = t'.text

theorem SameWord.refl (t : Token) : SameWord t t := ⟨rfl, fun _ => rfl⟩

/-- Names and literals stand on one line, and so are the same in both. -/
theorem Kin.sameWord {es : List Edit} {source mended : List Char} {t t' : Token}
    (h : Kin es source mended t t') (ha : t.kind.Admits t.text) : SameWord t t' := by
  refine ⟨h.kind, fun hk => h.slice.eq_of_not_mem ?_⟩
  have hi : Inline t.text := by
    rcases hk with hk | hk <;> rw [hk] at ha <;> exact ha
  exact hi.2

/-- What two texts are to each other up to the places where they are read abreast, and what the
tokens are that are read there. The texts go on as one is mended into the other. -/
structure Pairing (es : List Edit) (source mended : List Char) where
  before : List Char → List Char → Prop
  token : Token → Token → Prop
  append : ∀ {x y a b : List Char}, before x y → Mended es x.length a b →
    before (x ++ a) (y ++ b)
  emit : ∀ {t t' : Token}, t.kind = t'.kind →
    before (source.take t.start) (mended.take t'.start) → Mended es t.start t.text t'.text →
      token t t'
  word : ∀ {t t' : Token}, token t t' → t.kind.Admits t.text → SameWord t t'

/-- A text and its mended form, from the beginning on. -/
def Pairing.margins (es : List Edit) (source mended : List Char) : Pairing es source mended where
  before x y := Mended es (-1) ('\n' :: x) ('\n' :: y)
  token := Kin es source mended
  append h hab := by
    refine Mended.append h ?_
    convert hab using 1
    rw [List.length_cons]
    omega
  emit hkind hstart hslice := ⟨hkind, hstart, hslice⟩
  word h ha := h.sameWord ha

/-- Readings that stand at places of each other in two texts. The first one has `k` more tokens
before the others, and the second `k'`. -/
structure Abreast {es : List Edit} {source mended : List Char} (p : Pairing es source mended)
    (k k' : Nat) (r r' : Reading) : Prop where
  before : ∃ x y, source = x ++ r.rest ∧ mended = y ++ r'.rest ∧ r.place = Cursor.start.over x ∧
    r'.place = Cursor.start.over y ∧ p.before x y
  rest : Mended es r.place.offset r.rest r'.rest
  next : ∃ n, r.next = n + k ∧ r'.next = n + k'
  tokens : ∀ (i : Nat) (t' : Token), r'.tokens[i + k']? = some t' →
    ∃ t, r.tokens[i + k]? = some t ∧ p.token t t'

namespace Reading

variable {es : List Edit} {source mended : List Char} {p : Pairing es source mended} {k k' : Nat}
  {r r' s s' : Reading}

theorem offset_skip {m : Nat} (hm : m ≤ r.rest.length) :
    ((r.skip m).place.offset : Int) = r.place.offset + m := by
  show ((r.place.over (r.rest.take m)).offset : Int) = _
  rw [Cursor.offset_over, List.length_take, Nat.min_eq_left hm, Int.natCast_add]

theorem offset_emit {kind : TokenKind} {m : Nat} (hm : m ≤ r.rest.length) :
    ((r.emit kind m).place.offset : Int) = r.place.offset + m :=
  offset_skip hm

theorem abreast_skip (h : Abreast p k k' r r') {m n : Nat}
    (hc : Cut es r.place.offset r.rest r'.rest m n) :
    Abreast p k k' (r.skip m) (r'.skip n) := by
  obtain ⟨x, y, hx, hy, hpx, hpy, hxy⟩ := h.before
  have hoff : r.place.offset = x.length := by rw [hpx, offset_start_over]
  refine ⟨⟨x ++ r.rest.take m, y ++ r'.rest.take n, ?_, ?_, ?_, ?_, ?_⟩, ?_, h.next, h.tokens⟩
  · rw [rest_skip, List.append_assoc, List.take_append_drop, ← hx]
  · rw [rest_skip, List.append_assoc, List.take_append_drop, ← hy]
  · show r.place.over (r.rest.take m) = _
    rw [Cursor.over_append, hpx]
  · show r'.place.over (r'.rest.take n) = _
    rw [Cursor.over_append, hpy]
  · exact p.append hxy (hoff ▸ hc.before)
  · rw [offset_skip hc.le]
    exact hc.after

theorem abreast_emit (h : Abreast p k k' r r') (kind : TokenKind) {m n : Nat}
    (hc : Cut es r.place.offset r.rest r'.rest m n) :
    Abreast p k k' (r.emit kind m) (r'.emit kind n) := by
  obtain ⟨x, y, hx, hy, hpx, hpy, hxy⟩ := h.before
  obtain ⟨h1, h2, -, -⟩ := abreast_skip h hc
  obtain ⟨next, hn, hn'⟩ := h.next
  have hnext : ∃ i, (r.emit kind m).next = i + k ∧ (r'.emit kind n).next = i + k' :=
    ⟨next + 1, by rw [next_emit, hn, Nat.add_right_comm],
      by rw [next_emit, hn', Nat.add_right_comm]⟩
  refine ⟨h1, h2, hnext, fun i t' ht => ?_⟩
  rw [tokens_emit, Array.getElem?_push] at ht
  split at ht
  · next hi =>
    obtain rfl : i = next := Nat.add_right_cancel (hi.trans hn')
    obtain rfl := Option.some.inj ht
    refine ⟨r.token kind m, ?_, p.emit rfl ?_ hc.before⟩
    · rw [tokens_emit, show i + k = r.tokens.size from hn.symm, Array.getElem?_push_size]
    · have hsx : source.take r.place.offset = x := by
        rw [hpx, offset_start_over, hx, List.take_left']
        rfl
      have hsy : mended.take r'.place.offset = y := by
        rw [hpy, offset_start_over, hy, List.take_left']
        rfl
      show p.before (source.take r.place.offset) (mended.take r'.place.offset)
      rw [hsx, hsy]
      exact hxy
  · obtain ⟨t, ht, hk⟩ := h.tokens i t' ht
    have hi := (Array.getElem?_eq_some_iff.mp ht).1
    refine ⟨t, ?_, hk⟩
    rw [tokens_emit, Array.getElem?_push_lt hi, ← Array.getElem?_eq_getElem hi, ht]

theorem abreast_skipBlanks (h : Abreast p k k' r r') :
    Abreast p k k' r.skipBlanks r'.skipBlanks :=
  abreast_skip h (cut_blanks h.rest)

/-- Both rests begin with the same words. -/
theorem startsWith_abreast (h : Abreast p k k' r r') {word : List Char}
    (hw : Word word) : r.startsWith word = r'.startsWith word :=
  h.rest.reindented.isPrefixOf hw

/-- A piece within a line is the same in both. -/
theorem abreast_inline (h : Abreast p k k' r r') (kind : TokenKind) {n : Nat}
    (hle : n ≤ r.rest.length) (hn : '\n' ∉ r.rest.take n) :
    Abreast p k k' (r.emit kind n) (r'.emit kind n) ∧
      r'.rest.take n = r.rest.take n := by
  obtain ⟨h1, h2⟩ := cut_inline h.rest hle hn
  exact ⟨abreast_emit h kind h1, h2⟩

theorem newline_not_mem_word {word : List Char} (hw : Word word) : '\n' ∉ word := by
  intro h
  have := hw _ h
  rw [isBlank_newline] at this
  cases this

/-- A sign stands in both. -/
theorem abreast_sign (h : Abreast p k k' r r') (kind : TokenKind) {word : List Char}
    (hr : r.startsWith word = true) (hw : Word word) :
    Abreast p k k' (r.emit kind word.length) (r'.emit kind word.length) := by
  have hpre : word <+: r.rest := List.isPrefixOf_iff_prefix.mp hr
  refine (abreast_inline h kind hpre.length_le ?_).1
  rw [← List.prefix_iff_eq_take.mp hpre]
  exact newline_not_mem_word hw

/-- The first and the last of the tokens that are read are those of one place in both, if any was
read since both were abreast. -/
theorem ends_abreast (h : Abreast p k k' r r')
    (hs : Abreast p k k' s s') (hlt : r.next < s.next) :
    ∃ first last, r.next = first + k ∧ r'.next = first + k' ∧ s.last = last + k ∧
      s'.last = last + k' := by
  obtain ⟨n, hn, hn'⟩ := h.next
  obtain ⟨m, hm, hm'⟩ := hs.next
  refine ⟨n, m - 1, hn, hn', ?_, ?_⟩ <;> simp only [last, next] at * <;> omega

/-! ## Stretches -/

/-- What is left of the stretches of a text after a piece of it. -/
theorem rests_of_cut {text text' after after' : List Char} {o : Int} {m n : Nat}
    (hr : r.rest = text ++ after) (hr' : r'.rest = text' ++ after') (hc : Cut es o text text' m n)
    (hafter : Mended es (o + text.length) after after') :
    r.rest.drop m = text.drop m ++ after ∧ r'.rest.drop n = text'.drop n ++ after' ∧
      Mended es (o + m) (text.drop m) (text'.drop n) ∧
      Mended es (o + m + (text.drop m).length) after after' := by
  have hle := hc.le
  refine ⟨?_, ?_, hc.after, ?_⟩
  · rw [hr, List.drop_append_of_le_length hle]
  · rw [hr', List.drop_append_of_le_length hc.le']
  · convert hafter using 1
    rw [List.length_drop]
    omega

/-- Stretches of each other keep readings abreast. -/
theorem abreast_readStretches (blank : Option TokenKind) (content : TokenKind)
    {text text' after after' : List Char} (h : Abreast p k k' r r')
    (hr : r.rest = text ++ after) (hr' : r'.rest = text' ++ after')
    (htext : Mended es r.place.offset text text')
    (hafter : Mended es (r.place.offset + text.length) after after') :
    Abreast p k k' (readStretches blank content (stretches text) r)
      (readStretches blank content (stretches text') r') := by
  induction text using stretches.induct generalizing r r' text' with
  | case1 =>
    obtain rfl := htext.nil_iff.mp rfl
    simpa [stretches, readStretches] using h
  | case2 c rest hb n =>
    rename_i ih
    obtain ⟨rest', rfl⟩ := htext.exists_cons
    have hcut := cut_blanks htext
    rw [List.takeWhile_cons_of_pos hb, List.takeWhile_cons_of_pos hb, List.length_cons,
      List.length_cons] at hcut
    have hall := hcut.append hafter
    rw [← hr, ← hr'] at hall
    obtain ⟨hrest, hrest', hnext, hnext'⟩ := rests_of_cut hr hr' hcut hafter
    rw [stretches, if_pos hb, stretches, if_pos hb]
    cases blank with
    | none =>
      refine ih (abreast_skip h hall) hrest hrest' ?_ ?_
      · rw [offset_skip hall.le]
        exact hnext
      · rw [offset_skip hall.le]
        exact hnext'
    | some kind =>
      refine ih (abreast_emit h kind hall) hrest hrest' ?_ ?_
      · rw [offset_emit hall.le]
        exact hnext
      · rw [offset_emit hall.le]
        exact hnext'
  | case3 c rest hb n =>
    rename_i ih
    obtain ⟨rest', rfl⟩ := htext.exists_cons
    have hc : c ≠ '\n' := newline_ne_of_not_isBlank (by simpa using hb)
    have hcut : Cut es r.place.offset (c :: rest) (c :: rest') (contentTail rest + 1)
        (contentTail rest' + 1) := by
      cases htext with
      | line | mend => exact absurd rfl hc
      | char _ htext =>
        rw [← contentTail_reindented htext.reindented]
        exact (cut_inline htext (contentTail_le rest) (contentTail_spec rest).1).1.char hc
    have hall := hcut.append hafter
    rw [← hr, ← hr'] at hall
    obtain ⟨hrest, hrest', hnext, hnext'⟩ := rests_of_cut hr hr' hcut hafter
    rw [stretches, if_neg hb, stretches, if_neg hb]
    refine ih (abreast_emit h content hall) hrest hrest' ?_ ?_
    · rw [offset_emit hall.le]
      exact hnext
    · rw [offset_emit hall.le]
      exact hnext'

/-- The next characters that are of each other, read as stretches, keep readings abreast. -/
theorem abreast_run (h : Abreast p k k' r r') (blank : Option TokenKind)
    (content : TokenKind) {m n : Nat} (hc : Cut es r.place.offset r.rest r'.rest m n) :
    Abreast p k k' (r.run blank content m) (r'.run blank content n) := by
  refine abreast_readStretches blank content h (List.take_append_drop m r.rest).symm
    (List.take_append_drop n r'.rest).symm hc.before ?_
  rw [List.length_take, Nat.min_eq_left hc.le]
  exact hc.after

/-! ## Expressions and mustaches -/

theorem readExpression_cons {opened : Cursor} {depth : Nat} {c : Char} {rest : List Char}
    (h : r.skipBlanks.rest = c :: rest) : readExpression opened depth r =
      if c = '}' ∧ depth = 0 then .ok (r.skipBlanks.emit .punctuator 1)
      else readExpression opened
        (braceDepth depth (expressionLexeme c rest).1 (c :: rest.take (expressionLexeme c rest).2))
        (r.skipBlanks.emit (expressionLexeme c rest).1 ((expressionLexeme c rest).2 + 1)) := by
  rw [readExpression]
  split
  · next h' =>
    rw [h] at h'
    cases h'
  · next h' =>
    rw [h] at h'
    obtain ⟨rfl, rfl⟩ := List.cons.inj h'
    rfl

/-- A lexeme is a lone sign if its partner is. -/
theorem braceDepth_of_cut {o : Int} {c : Char} {a b : List Char} {m n : Nat} (depth : Nat)
    (kind : TokenKind) (h : Cut es o a b m n) :
    braceDepth depth kind (c :: a.take m) = braceDepth depth kind (c :: b.take n) := by
  have hnil := h.before.nil_iff
  have key : ∀ d : Char, c :: a.take m = [d] ↔ c :: b.take n = [d] := by
    intro d
    simp only [List.cons.injEq, hnil]
  simp only [braceDepth, key]

theorem abreast_readExpression {opened : Cursor} (opened' : Cursor) {depth : Nat}
    (h : Abreast p k k' r r') (hs : readExpression opened depth r = .ok s) :
    ∃ s', readExpression opened' depth r' = .ok s' ∧ Abreast p k k' s s' := by
  fun_induction readExpression opened depth r generalizing r' with
  | case1 => cases hs
  | case2 depth r c rest hr hd =>
    cases hs
    have hb := abreast_skipBlanks h
    have hrest := hb.rest
    rw [hr] at hrest
    obtain ⟨rest', hr'⟩ := hrest.exists_cons
    rw [readExpression_cons hr', if_pos hd]
    have hw : r.skipBlanks.startsWith ['}'] = true := by simp [startsWith, hr, hd.1]
    exact ⟨_, rfl, abreast_sign hb .punctuator hw (by decide)⟩
  | case3 depth r c rest hr hd lexeme =>
    rename_i ih
    have hb := abreast_skipBlanks h
    have hc := not_isBlank_of_skipBlanks hr
    have hrest := hb.rest
    rw [hr] at hrest
    obtain ⟨rest', hr'⟩ := hrest.exists_cons
    rw [hr'] at hrest
    cases hrest with
    | line | mend => cases hc
    | char hne hrest =>
      obtain ⟨hkind, hcut⟩ := cut_expressionLexeme hc hrest
      rw [readExpression_cons hr', if_neg hd, ← hkind, ← braceDepth_of_cut depth _ hcut]
      refine ih (abreast_emit hb _ ?_) hs
      rw [hr, hr']
      exact hcut.char hne

theorem abreast_readKeyword {word : List Char} (h : Abreast p k k' r r')
    (hs : readKeyword r = .ok (word, s)) :
    ∃ s', readKeyword r' = .ok (word, s') ∧ Abreast p k k' s s' := by
  have hb := abreast_skipBlanks h
  have hword := takeWhile_reindented (p := isAsciiLetter) (by decide) hb.rest.reindented
  unfold readKeyword at hs ⊢
  simp only [← hword] at hs ⊢
  split at hs
  · cases hs
  · next hw =>
    cases hs
    rw [if_neg hw]
    refine ⟨_, rfl, (abreast_inline hb .name (List.takeWhile_prefix _).length_le ?_).1⟩
    rw [take_length_takeWhile]
    exact (inline_keyword (by simpa using hw)).2

theorem abreast_readMustache {m : Mustache} (h : Abreast p k k' r r')
    (hr : r.startsWith ['{'] = true) (hs : readMustache r = .ok (m, s)) :
    ∃ (m₀ : Mustache) (s' : Reading), readMustache r' = .ok (m₀.moved k', s') ∧ m = m₀.moved k ∧
      Abreast p k k' s s' := by
  have hat := startsWith_abreast h (show Word ['{', '@'] by decide)
  have hlt : r.next < s.next := by
    obtain ⟨-, hfirst, hlast, hfits⟩ := reads_readMustache hr hs
    have := hfits.lt
    omega
  unfold readMustache at hs ⊢
  rw [← hat]
  split at hs
  · next hsign =>
    obtain ⟨⟨word, s1⟩, h1, hs⟩ := bind_eq_ok.mp hs
    obtain ⟨s2, h2, hs⟩ := bind_eq_ok.mp hs
    cases hs
    obtain ⟨s1', h3, h4⟩ := abreast_readKeyword (abreast_sign h .punctuator hsign (by decide)) h1
    obtain ⟨s2', h5, h6⟩ := abreast_readExpression r'.place h4 h2
    obtain ⟨first, last, hf, hf', hl, hl'⟩ := ends_abreast h h6 hlt
    refine ⟨⟨word, first, last⟩, s2', ?_, by rw [hf, hl, Mustache.moved], h6⟩
    rw [if_pos hsign, Mustache.moved, ← hf', ← hl']
    exact bind_eq_ok.mpr ⟨_, h3, bind_eq_ok.mpr ⟨_, h5, rfl⟩⟩
  · next hsign =>
    obtain ⟨s2, h2, hs⟩ := bind_eq_ok.mp hs
    cases hs
    obtain ⟨s2', h5, h6⟩ := abreast_readExpression r'.place
      (abreast_sign h .punctuator hr (by decide)) h2
    obtain ⟨first, last, hf, hf', hl, hl'⟩ := ends_abreast h h6 hlt
    refine ⟨⟨plainKind, first, last⟩, s2', ?_, by rw [hf, hl, Mustache.moved], h6⟩
    rw [if_neg hsign, Mustache.moved, ← hf', ← hl']
    exact bind_eq_ok.mpr ⟨_, h5, rfl⟩

theorem abreast_readBlockTag {b : BlockTag} {sign : Char} (hb : isBlank sign = false)
    (h : Abreast p k k' r r') (hr : r.startsWith ['{', sign] = true)
    (hs : readBlockTag r = .ok (b, s)) :
    ∃ (b₀ : BlockTag) (s' : Reading), readBlockTag r' = .ok (b₀.moved k', s') ∧ b = b₀.moved k ∧
      Abreast p k k' s s' := by
  have hlt : r.next < s.next := by
    obtain ⟨-, hfirst, hlast, hfits⟩ := reads_readBlockTag hb hr hs
    have := hfits.lt
    omega
  obtain ⟨⟨word, s1⟩, h1, hs⟩ := bind_eq_ok.mp hs
  obtain ⟨s2, h2, hs⟩ := bind_eq_ok.mp hs
  cases hs
  obtain ⟨s1', h3, h4⟩ := abreast_readKeyword (abreast_sign h .punctuator hr (word_blockSign hb)) h1
  obtain ⟨s2', h5, h6⟩ := abreast_readExpression r'.place h4 h2
  obtain ⟨first, last, hf, hf', hl, hl'⟩ := ends_abreast h h6 hlt
  refine ⟨⟨word, first, last⟩, s2', ?_, by rw [hf, hl, BlockTag.moved], h6⟩
  rw [BlockTag.moved, ← hf', ← hl']
  exact bind_eq_ok.mpr ⟨_, h3, bind_eq_ok.mpr ⟨_, h5, rfl⟩⟩

/-! ## Attributes -/

theorem readQuoted_cons {quote c : Char} {rest : List Char} (values : List Mustache)
    (h : r.rest = c :: rest) : readQuoted quote values r =
      if c = quote then .ok (values, r.emit .punctuator 1)
      else if c = '{' then r.readMustache >>= fun (m, s) => readQuoted quote (values ++ [m]) s
      else readQuoted quote values (r.run none .literal
        ((rest.takeWhile fun d => d != quote && d != '{').length + 1)) := by
  rw [readQuoted]
  split
  · next h' =>
    rw [h] at h'
    cases h'
  · next h' =>
    rw [h] at h'
    obtain ⟨rfl, rfl⟩ := List.cons.inj h'
    congr 2
    cases hm : r.readMustache with
    | error e | ok m => simp only [bind, Except.bind]

theorem cut_literal {quote c : Char} {rest rest' : List Char} {o : Int} (hq : isBlank quote = false)
    (hc : c ≠ quote) (hb : c ≠ '{') (h : Mended es o (c :: rest) (c :: rest')) :
    Cut es o (c :: rest) (c :: rest')
      ((rest.takeWhile fun d => d != quote && d != '{').length + 1)
      ((rest'.takeWhile fun d => d != quote && d != '{').length + 1) := by
  have hcut := cut_search_getD (steady_endsLiteral hq) h
  rw [← literal_eq, ← literal_eq] at hcut
  simpa [List.takeWhile_cons, hc, hb] using hcut

theorem abreast_readQuoted {quote : Char} (hq : isBlank quote = false)
    {values ms : List Mustache} (vs : List Mustache) (h : Abreast p k k' r r')
    (hv : values = vs.map (Mustache.moved k)) (hs : readQuoted quote values r = .ok (ms, s)) :
    ∃ (ms₀ : List Mustache) (s' : Reading), readQuoted quote (vs.map (Mustache.moved k')) r' =
        .ok (ms₀.map (Mustache.moved k'), s') ∧ ms = ms₀.map (Mustache.moved k) ∧
      Abreast p k k' s s' := by
  fun_induction readQuoted quote values r generalizing r' vs with
  | case1 => cases hs
  | case2 values r rest hr =>
    cases hs
    have hrest := h.rest
    rw [hr] at hrest
    obtain ⟨rest', hr'⟩ := hrest.exists_cons
    rw [readQuoted_cons _ hr', if_pos rfl]
    have hw : r.startsWith [quote] = true := by simp [startsWith, hr]
    exact ⟨_, _, rfl, hv, abreast_sign h .punctuator hw (by simpa [Word] using hq)⟩
  | case3 => cases hs
  | case4 values r rest m t hm hr hc =>
    rename_i ih
    have hrest := h.rest
    rw [hr] at hrest
    obtain ⟨rest', hr'⟩ := hrest.exists_cons
    obtain ⟨m₀, t', h1, rfl, h2⟩ := abreast_readMustache h (by simp [startsWith, hr]) hm
    obtain ⟨ms₀, s', h3, h4, h5⟩ := @ih _ (vs ++ [m₀]) h2 (by simp [hv]) hs
    rw [List.map_append, List.map_singleton] at h3
    refine ⟨ms₀, s', ?_, h4, h5⟩
    rw [readQuoted_cons _ hr', if_neg hc, if_pos rfl]
    exact bind_eq_ok.mpr ⟨_, h1, h3⟩
  | case5 values r c rest hr hc hb n =>
    rename_i ih
    have hrest := h.rest
    rw [hr] at hrest
    obtain ⟨rest', hr'⟩ := hrest.exists_cons
    rw [hr'] at hrest
    rw [readQuoted_cons _ hr', if_neg hc, if_neg hb]
    refine ih vs (abreast_run h none .literal ?_) hv hs
    rw [hr, hr']
    exact cut_literal hq hc hb hrest

theorem abreast_readValue {ms : List Mustache} (h : Abreast p k k' r r')
    (hs : readValue r = .ok (ms, s)) :
    ∃ (ms₀ : List Mustache) (s' : Reading), readValue r' = .ok (ms₀.map (Mustache.moved k'), s') ∧
      ms = ms₀.map (Mustache.moved k) ∧ Abreast p k k' s s' := by
  have h1 := startsWith_abreast h (show Word ['"'] by decide)
  have h2 := startsWith_abreast h (show Word ['\''] by decide)
  have h3 := startsWith_abreast h (show Word ['{'] by decide)
  have h4 := unquotedLength?_reindented h.rest.reindented
  unfold readValue at hs ⊢
  rw [← h1, ← h2, ← h3, ← h4]
  split at hs
  · next hw =>
    rw [if_pos hw]
    exact abreast_readQuoted rfl [] (abreast_sign h .punctuator hw (by decide)) rfl hs
  next hw =>
  rw [if_neg hw]
  split at hs
  · next hw =>
    rw [if_pos hw]
    exact abreast_readQuoted rfl [] (abreast_sign h .punctuator hw (by decide)) rfl hs
  next hw =>
  rw [if_neg hw]
  split at hs
  · next hw =>
    rw [if_pos hw]
    obtain ⟨⟨m, t⟩, h5, hs⟩ := bind_eq_ok.mp hs
    cases hs
    obtain ⟨m₀, t', h6, rfl, h7⟩ := abreast_readMustache h hw h5
    exact ⟨[m₀], t', bind_eq_ok.mpr ⟨_, h6, rfl⟩, rfl, h7⟩
  next hw =>
  rw [if_neg hw]
  split at hs
  · next n hn =>
    cases hs
    obtain ⟨hle, hi⟩ := unquotedLength?_spec hn
    exact ⟨[], _, rfl, rfl, (abreast_inline h .literal hle hi.2).1⟩
  · cases hs

theorem abreast_readAttribute {a : Attribute} (h : Abreast p k k' r r')
    (hs : readAttribute r = .ok (a, s)) :
    ∃ (a₀ : Attribute) (s' : Reading), readAttribute r' = .ok (a₀.moved k', s') ∧ a = a₀.moved k ∧
      Abreast p k k' s s' := by
  have h1 := startsWith_abreast h (show Word ['{'] by decide)
  have h2 := attributeNameLength_reindented h.rest.reindented
  have hlt : r.next < s.next := by
    obtain ⟨-, hfirst, hlast, hfits⟩ := reads_readAttribute hs
    have := hfits.le
    omega
  unfold readAttribute at hs ⊢
  rw [← h1, ← h2]
  split at hs
  · next hw =>
    rw [if_pos hw]
    obtain ⟨⟨m, t⟩, h5, hs⟩ := bind_eq_ok.mp hs
    cases hs
    obtain ⟨m₀, t', h6, rfl, h7⟩ := abreast_readMustache h hw h5
    exact ⟨⟨m₀.first, m₀.last, none, [m₀]⟩, t', bind_eq_ok.mpr ⟨_, h6, rfl⟩, rfl, h7⟩
  next hw =>
  rw [if_neg hw]
  simp only at hs ⊢
  split at hs
  · cases hs
  next hn =>
  rw [if_neg hn]
  have h3 := (abreast_inline h .name (attributeNameLength_le _) (inline_attributeName hn).2).1
  have h4 := startsWith_abreast (abreast_skipBlanks h3) (show Word ['='] by decide)
  rw [← h4]
  split at hs
  · next heq =>
    rw [if_pos heq]
    obtain ⟨⟨ms, t⟩, h5, hs⟩ := bind_eq_ok.mp hs
    cases hs
    have h6 := abreast_sign (abreast_skipBlanks h3) .punctuator heq (by decide)
    obtain ⟨ms₀, t', h7, rfl, h8⟩ := abreast_readValue (abreast_skipBlanks h6) h5
    obtain ⟨first, last, hf, hf', hl, hl'⟩ := ends_abreast h h8 hlt
    refine ⟨⟨first, last, some first, ms₀⟩, t', ?_,
      by rw [hf, hl, Attribute.moved, Option.map_some],
      h8⟩
    rw [Attribute.moved, Option.map_some, ← hf', ← hl']
    exact bind_eq_ok.mpr ⟨_, h7, rfl⟩
  · next heq =>
    cases hs
    rw [if_neg heq]
    obtain ⟨n, hn, hn'⟩ := h.next
    refine ⟨⟨n, n, some n, []⟩, _, by rw [hn']; rfl, by rw [hn]; rfl, h3⟩

/-! ## Tags of elements -/

theorem readAttributes_cons {c : Char} {rest : List Char} (before : List Attribute)
    (h : r.skipBlanks.rest = c :: rest) : readAttributes before r =
      if r.skipBlanks.startsWith ['/', '>'] then
        .ok (before, true, r.skipBlanks.emit .punctuator 2)
      else if r.skipBlanks.startsWith ['>'] then
        .ok (before, false, r.skipBlanks.emit .punctuator 1)
      else r.skipBlanks.readAttribute >>= fun (a, s) => readAttributes (before ++ [a]) s := by
  rw [readAttributes]
  split
  · next h' =>
    rw [h] at h'
    cases h'
  · congr 2
    cases ha : r.skipBlanks.readAttribute with
    | error e | ok a => simp only [bind, Except.bind]

theorem abreast_readAttributes {before as before₀ : List Attribute} {closed : Bool}
    (h : Abreast p k k' r r') (hb : before = before₀.map (Attribute.moved k))
    (hs : readAttributes before r = .ok (as, closed, s)) :
    ∃ (as₀ : List Attribute) (s' : Reading), readAttributes (before₀.map (Attribute.moved k')) r' =
        .ok (as₀.map (Attribute.moved k'), closed, s') ∧
      as = as₀.map (Attribute.moved k) ∧ Abreast p k k' s s' := by
  have split_rest : ∀ {r r' : Reading} {c : Char} {rest : List Char},
      Abreast p k k' r r' → r.skipBlanks.rest = c :: rest →
        (∃ rest', r'.skipBlanks.rest = c :: rest') ∧
        r.skipBlanks.startsWith ['/', '>'] = r'.skipBlanks.startsWith ['/', '>'] ∧
        r.skipBlanks.startsWith ['>'] = r'.skipBlanks.startsWith ['>'] := by
    intro r r' c rest h hr
    have hskip := abreast_skipBlanks h
    have hrest := hskip.rest
    rw [hr] at hrest
    exact ⟨hrest.exists_cons, startsWith_abreast hskip (by decide),
      startsWith_abreast hskip (by decide)⟩
  fun_induction readAttributes before r generalizing r' before₀ with
  | case1 => cases hs
  | case2 before r c rest hr h1 =>
    cases hs
    obtain ⟨⟨rest', hr'⟩, h2, -⟩ := split_rest h hr
    rw [readAttributes_cons _ hr', ← h2, if_pos h1]
    exact ⟨_, _, rfl, hb, abreast_sign (abreast_skipBlanks h) .punctuator h1 (by decide)⟩
  | case3 before r c rest hr h1 h2 =>
    cases hs
    obtain ⟨⟨rest', hr'⟩, h3, h4⟩ := split_rest h hr
    rw [readAttributes_cons _ hr', ← h3, if_neg h1, ← h4, if_pos h2]
    exact ⟨_, _, rfl, hb, abreast_sign (abreast_skipBlanks h) .punctuator h2 (by decide)⟩
  | case4 => cases hs
  | case5 before r c rest hr h1 h2 a t ha =>
    rename_i ih
    obtain ⟨⟨rest', hr'⟩, h3, h4⟩ := split_rest h hr
    obtain ⟨a₀, t', h5, rfl, h6⟩ := abreast_readAttribute (abreast_skipBlanks h) ha
    obtain ⟨as₀, s', h7, h8, h9⟩ := @ih _ (before₀ ++ [a₀]) h6 (by simp [hb]) hs
    rw [List.map_append, List.map_singleton] at h7
    refine ⟨as₀, s', ?_, h8, h9⟩
    rw [readAttributes_cons _ hr', ← h3, if_neg h1, ← h4, if_neg h2]
    exact bind_eq_ok.mpr ⟨_, h5, h7⟩

theorem abreast_readStartTag {tag : StartTag} {name : List Char}
    (h : Abreast p k k' r r') (hr : r.startsWith ['<'] = true)
    (hn : tagNameLength r.rest.tail ≠ 0) (hs : readStartTag r = .ok (tag, name, s)) :
    ∃ (tag₀ : StartTag) (s' : Reading), readStartTag r' = .ok (tag₀.moved k', name, s') ∧
      tag = tag₀.moved k ∧
      Abreast p k k' s s' := by
  have hlt : r.next < s.next := by
    obtain ⟨⟨-, hfirst, hlast, hfits⟩, -⟩ := reads_readStartTag hr hn hs
    have := hfits.lt
    omega
  have h1 : Abreast p k k' (r.emit .punctuator 1) (r'.emit .punctuator 1) :=
    abreast_sign h .punctuator hr (by decide)
  obtain ⟨hinline, -⟩ := readsMarkup_tagName hn
  obtain ⟨h2, h3⟩ := abreast_inline h1 .name (tagNameLength_le _) hinline.2
  obtain ⟨⟨as, closed, t⟩, h4, hs⟩ := bind_eq_ok.mp hs
  cases hs
  rw [length_take_tagName] at h4
  have hnil : ([] : List Attribute) = [].map (Attribute.moved k) := rfl
  obtain ⟨as₀, t', h5, rfl, h6⟩ := abreast_readAttributes h2 hnil h4
  obtain ⟨first, last, hf, hf', hl, hl'⟩ := ends_abreast h h6 hlt
  refine ⟨⟨first, last, first + 1, as₀, closed⟩, t', ?_, ?_, h6⟩
  · rw [StartTag.moved, Nat.add_right_comm, ← hf', ← hl', readStartTag]
    simp only
    rw [← tagNameLength_reindented h1.rest.reindented, h3]
    refine bind_eq_ok.mpr ⟨(_, closed, t'), ?_, rfl⟩
    rw [length_take_tagName]
    exact h5
  · rw [StartTag.moved, hf, hl, Nat.add_right_comm first k 1]

theorem abreast_readEndTag {name : List Char} {tag : EndTag} (hname : Inline name)
    (h : Abreast p k k' r r') (hr : r.startsWith ['<', '/'] = true)
    (hs : readEndTag name r = .ok (tag, s)) :
    ∃ (tag₀ : EndTag) (s' : Reading), readEndTag name r' = .ok (tag₀.moved k', s') ∧
      tag = tag₀.moved k ∧
      Abreast p k k' s s' := by
  have hlt : r.next < s.next := by
    obtain ⟨⟨-, hfirst, hlast, hfits⟩, -⟩ := reads_readEndTag hr hname hs
    have := hfits.last
    omega
  have h1 : Abreast p k k' (r.emit .punctuator 2) (r'.emit .punctuator 2) :=
    abreast_sign h .punctuator hr (by decide)
  have h2 := abreast_skipBlanks h1
  have h3 := tagNameLength_reindented h2.rest.reindented
  unfold readEndTag at hs ⊢
  simp only at hs ⊢
  split at hs
  · cases hs
  next hn =>
  have hinline := hname.2
  rw [← not_not.mp hn] at hinline
  obtain ⟨h4, h5⟩ := abreast_inline h2 .name (tagNameLength_le _) hinline
  rw [← h3, h5, if_neg hn]
  have h6 := startsWith_abreast (abreast_skipBlanks h4) (show Word ['>'] by decide)
  rw [← h6]
  split at hs
  · next hgt =>
    cases hs
    have h7 := abreast_sign (abreast_skipBlanks h4) .punctuator hgt (by decide)
    rw [if_pos hgt]
    obtain ⟨first, last, hf, hf', hl, hl'⟩ := ends_abreast h h7 hlt
    refine ⟨⟨first, last⟩, _, ?_, ?_, h7⟩
    · rw [EndTag.moved, ← hf', ← hl']
      rfl
    · rw [EndTag.moved, ← hf, ← hl]
      rfl
  · cases hs

end Reading

/-! ## The language of a raw block -/

/-- The tokens that are read, without those that the mended text has before all others. -/
theorem Abreast.matched {es : List Edit} {source mended : List Char} {p : Pairing es source mended}
    {k k' : Nat} {r r' : Reading} (h : Abreast p k k' r r') :
    Matched p.token k r.tokens (r'.tokens.extract k') := by
  obtain ⟨n, hn, hn'⟩ := h.next
  refine ⟨?_, fun i t' ht => h.tokens i t' ?_⟩
  · have h1 : r.tokens.size = n + k := hn
    have h2 : r'.tokens.size = n + k' := hn'
    rw [Array.size_extract]
    omega
  · rwa [getElem?_extract_from] at ht

section Language

variable {k : Nat} {ts ts' : Array Token} (h : Matched SameWord k ts ts')
include h

theorem attributeLanguage?_matched {a : Attribute} (hf : (a.moved k).Fits ts) :
    Reading.attributeLanguage? ts (a.moved k) = Reading.attributeLanguage? ts' a := by
  unfold Reading.attributeLanguage?
  cases hkey : a.key with
  | none => simp [Attribute.moved, hkey]
  | some key =>
    obtain ⟨t, ht, hname⟩ := hf.named (key + k) (by rw [Attribute.moved, hkey]; rfl)
    obtain ⟨t', ht', hword⟩ := h.of_first ht
    have hextract := h.extract (key + 1) (a.last + 1)
    have hfind := find?_forall₂ (p := fun t => t.kind == .literal)
      (q := fun t => t.kind == .literal) hextract fun x y hxy => by rw [hxy.kind]
    simp only [Attribute.moved, hkey, Option.map_some, Option.bind_eq_bind, Option.bind_some, ht,
      ht', hword.text (.inl hname)]
    rw [Nat.add_right_comm key k 1, Nat.add_right_comm a.last k 1, ← Array.find?_toList,
      ← Array.find?_toList]
    rcases hfind with ⟨h1, h2⟩ | ⟨x, y, h1, h2, hxy⟩
    · rw [h1, h2]
    · have hkind : x.kind = .literal := by simpa using List.find?_some h1
      rw [h1, h2, Option.bind_some, hxy.text (.inr hkind)]
      rfl

/-- **The language of a raw block is the same in both.** -/
theorem language_matched {as : List Attribute} (hf : ∀ a ∈ as, (a.moved k).Fits ts)
    (kind : RawKind) :
    Reading.language kind ts (as.map (Attribute.moved k)) = Reading.language kind ts' as := by
  unfold Reading.language
  rw [List.findSome?_map]
  congr 1
  induction as with
  | nil => rfl
  | cons a as ih =>
    rw [List.findSome?_cons, List.findSome?_cons, Function.comp_apply,
      attributeLanguage?_matched h (hf a List.mem_cons_self),
      ih fun b hb => hf b (List.mem_cons_of_mem a hb)]

end Language

end MarkupIndent.Markup
