import MarkupIndent.Markup.Tag
import MarkupIndent.Proofs.Tokens

/-!
# The tokens of tags

Every tag that is read spans the tokens that were read for it: it begins at the first of them and
ends at the last, and its pieces lie inside in order. None of these tokens is text between tags.

* `Marked`: the tokens of a range are there and are no text between tags.
* `Stands`: a token of a kind and a text has an index.
* `Mustache.Fits`, `Attribute.Fits`, `StartTag.Fits`, `EndTag.Fits`, `BlockTag.Fits`: a tag with
  its pieces in the places that the tokens give them.
* `reads_readMustache` and the like: what is read fits.
-/

namespace MarkupIndent.Markup

open Text

/-! ## Ranges of tokens -/

/-- The tokens of a range, its end excluded, are there and are no text between tags. -/
def Marked (tokens : Array Token) (first stop : Nat) : Prop :=
  ∀ i, first ≤ i → i < stop → ∃ t, tokens[i]? = some t ∧ t.kind ≠ .htmlText

/-- Every token of one array stands in another at the same index. -/
def Extends (tokens more : Array Token) : Prop :=
  ∀ (i : Nat) (t : Token), tokens[i]? = some t → more[i]? = some t

/-- The token of an index has a kind and a text. -/
def Stands (tokens : Array Token) (i : Nat) (kind : TokenKind) (text : List Char) : Prop :=
  ∃ t, tokens[i]? = some t ∧ t.kind = kind ∧ t.text = text

theorem Extends.trans {tokens more most : Array Token} (h : Extends tokens more)
    (h' : Extends more most) : Extends tokens most :=
  fun i t ht => h' i t (h i t ht)

theorem Stands.mono {tokens more : Array Token} (he : Extends tokens more) {i : Nat}
    {kind : TokenKind} {text : List Char} (h : Stands tokens i kind text) :
    Stands more i kind text :=
  h.imp fun t ht => ⟨he i t ht.1, ht.2⟩

theorem Marked.mono {tokens more : Array Token} (he : Extends tokens more) {first stop : Nat}
    (h : Marked tokens first stop) : Marked more first stop := by
  intro i h1 h2
  obtain ⟨t, ht, hk⟩ := h i h1 h2
  exact ⟨t, he i t ht, hk⟩

/-! ## Tags in their places -/

/-- A mustache spans more than one token, all of them its own. -/
structure Mustache.Fits (tokens : Array Token) (m : Mustache) : Prop where
  lt : m.first < m.last
  marked : Marked tokens m.first (m.last + 1)

/-- One mustache ends before another begins. -/
def Mustache.Precedes (m n : Mustache) : Prop :=
  m.last < n.first

/-- An attribute begins with its key, which is a name, or is the mustache that it has for a value.
Its mustaches lie inside, one after the other. -/
structure Attribute.Fits (tokens : Array Token) (a : Attribute) : Prop where
  le : a.first ≤ a.last
  marked : Marked tokens a.first (a.last + 1)
  key : ∀ k, a.key = some k → k = a.first
  named : ∀ k, a.key = some k → ∃ t, tokens[k]? = some t ∧ t.kind = .name
  values : ∀ m ∈ a.values, m.Fits tokens ∧ a.first ≤ m.first ∧ m.last ≤ a.last
  apart : a.values.Pairwise Mustache.Precedes

/-- Attributes follow each other from one index to another, without gaps. -/
def AttributesTile (tokens : Array Token) (lo : Nat) : List Attribute → (hi : Nat) → Prop
  | [], hi => lo = hi
  | a :: rest, hi => a.first = lo ∧ a.Fits tokens ∧ AttributesTile tokens (a.last + 1) rest hi

/-- The sign that ends a start tag. -/
def StartTag.closing (t : StartTag) : List Char :=
  if t.selfClosing then ['/', '>'] else ['>']

/-- A start tag is its opening sign, its name, its attributes and its closing sign. -/
structure StartTag.Fits (tokens : Array Token) (t : StartTag) : Prop where
  name : t.name = t.first + 1
  attributes : AttributesTile tokens (t.first + 2) t.attributes t.last
  marked : Marked tokens t.first (t.last + 1)
  opened : Stands tokens t.first .punctuator ['<']
  closed : Stands tokens t.last .punctuator t.closing

/-- An end tag is its opening sign, its name and its closing sign. -/
structure EndTag.Fits (tokens : Array Token) (t : EndTag) : Prop where
  last : t.last = t.first + 2
  marked : Marked tokens t.first (t.last + 1)
  opened : Stands tokens t.first .punctuator ['<', '/']
  closed : Stands tokens t.last .punctuator ['>']

/-- A tag of a control block spans more than one token, all of them its own, and the second is its
keyword. -/
structure BlockTag.Fits (tokens : Array Token) (t : BlockTag) : Prop where
  lt : t.first < t.last
  marked : Marked tokens t.first (t.last + 1)
  keyword : Stands tokens (t.first + 1) .name t.keyword

section Mono

variable {tokens more : Array Token} (he : Extends tokens more)
include he

theorem Mustache.Fits.mono {m : Mustache} (h : m.Fits tokens) : m.Fits more :=
  ⟨h.lt, h.marked.mono he⟩

theorem Attribute.Fits.mono {a : Attribute} (h : a.Fits tokens) : a.Fits more :=
  ⟨h.le, h.marked.mono he, h.key, fun k hk => (h.named k hk).imp fun t ht => ⟨he k t ht.1, ht.2⟩,
    fun m hm => ⟨(h.values m hm).1.mono he, (h.values m hm).2⟩, h.apart⟩

theorem AttributesTile.mono {as : List Attribute} {lo hi : Nat}
    (h : AttributesTile tokens lo as hi) : AttributesTile more lo as hi := by
  induction as generalizing lo with
  | nil => exact h
  | cons a rest ih => exact ⟨h.1, h.2.1.mono he, ih h.2.2⟩

theorem StartTag.Fits.mono {t : StartTag} (h : t.Fits tokens) : t.Fits more :=
  ⟨h.name, h.attributes.mono he, h.marked.mono he, h.opened.mono he, h.closed.mono he⟩

theorem EndTag.Fits.mono {t : EndTag} (h : t.Fits tokens) : t.Fits more :=
  ⟨h.last, h.marked.mono he, h.opened.mono he, h.closed.mono he⟩

theorem BlockTag.Fits.mono {t : BlockTag} (h : t.Fits tokens) : t.Fits more :=
  ⟨h.lt, h.marked.mono he, h.keyword.mono he⟩

end Mono

theorem AttributesTile.le {tokens : Array Token} {as : List Attribute} {lo hi : Nat}
    (h : AttributesTile tokens lo as hi) : lo ≤ hi := by
  induction as generalizing lo with
  | nil => exact Nat.le_of_eq h
  | cons a rest ih =>
    have h1 := h.2.1.le
    have h2 := ih h.2.2
    have h3 := h.1
    omega

theorem AttributesTile.concat {tokens : Array Token} {as : List Attribute} {a : Attribute}
    {lo mid : Nat} (h : AttributesTile tokens lo as mid) (hf : a.first = mid)
    (ha : a.Fits tokens) : AttributesTile tokens lo (as ++ [a]) (a.last + 1) := by
  induction as generalizing lo with
  | nil => exact ⟨hf.trans (Eq.symm h), ha, rfl⟩
  | cons b rest ih => exact ⟨h.1, h.2.1, ih h.2.2⟩

theorem StartTag.Fits.lt {tokens : Array Token} {t : StartTag} (h : t.Fits tokens) :
    t.first + 2 ≤ t.last :=
  h.attributes.le

/-- Every attribute of a tag lies between its name and its closing sign. -/
theorem AttributesTile.bounds {tokens : Array Token} {as : List Attribute} {lo hi : Nat}
    (h : AttributesTile tokens lo as hi) :
    ∀ a ∈ as, a.Fits tokens ∧ lo ≤ a.first ∧ a.last < hi := by
  induction as generalizing lo with
  | nil => simp
  | cons b rest ih =>
    intro a ha
    have hle := h.2.2.le
    have hb := h.2.1.le
    have hf := h.1
    rcases List.mem_cons.mp ha with rfl | ha
    · exact ⟨h.2.1, by omega, by omega⟩
    · obtain ⟨h1, h2, h3⟩ := ih h.2.2 a ha
      exact ⟨h1, by omega, h3⟩

namespace Reading

/-! ## Reading markup -/

/-- One reading goes on to another, and what it emits is no text between tags. -/
def ReadsMarkup (r s : Reading) : Prop :=
  ∃ ts, Reads r ts s ∧ ∀ t ∈ ts, t.kind ≠ .htmlText

variable {r s t : Reading}

theorem ReadsMarkup.trans (h : ReadsMarkup r s) (h' : ReadsMarkup s t) : ReadsMarkup r t := by
  obtain ⟨ts, h1, h2⟩ := h
  obtain ⟨us, h3, h4⟩ := h'
  refine ⟨ts ++ us, h1.trans h3, ?_⟩
  intro x hx
  exact (List.mem_append.mp hx).elim (h2 x) (h4 x)

theorem Reads.extends {ts : List Token} (h : Reads r ts s) : Extends r.tokens s.tokens :=
  fun _ _ hu => h.getElem? hu

theorem ReadsMarkup.extends (h : ReadsMarkup r s) : Extends r.tokens s.tokens :=
  h.choose_spec.1.extends

theorem ReadsMarkup.next_le (h : ReadsMarkup r s) : r.next ≤ s.next := by
  obtain ⟨ts, h1, -⟩ := h
  rw [h1.next]
  omega

theorem ReadsMarkup.marked (h : ReadsMarkup r s) : Marked s.tokens r.next s.next := by
  obtain ⟨ts, h1, h2⟩ := h
  intro i hlo hhi
  have hnext := h1.next
  simp only [next] at hlo hhi hnext
  have hi : i - r.tokens.size < ts.length := by omega
  refine ⟨ts[i - r.tokens.size], ?_, h2 _ (List.getElem_mem hi)⟩
  rw [h1.tokens, Array.getElem?_append_right hlo, List.getElem?_toArray, List.getElem?_eq_getElem]

theorem readsMarkup_skipBlanks (r : Reading) : ReadsMarkup r r.skipBlanks :=
  ⟨[], reads_skipBlanks r, by simp⟩

theorem readsMarkup_emit {kind : TokenKind} {n : Nat} (hn : n ≤ r.rest.length)
    (hk : kind.Admits (r.rest.take n)) (hkind : kind ≠ .htmlText) :
    ReadsMarkup r (r.emit kind n) :=
  ⟨_, reads_emit hn hk, by simpa [token] using hkind⟩

/-- A sign of characters that are not blank becomes a token. -/
theorem readsMarkup_sign {word : List Char} (hw : r.startsWith word = true)
    (hne : word ≠ []) (hb : Word word) :
    ReadsMarkup r (r.emit .punctuator word.length) :=
  ⟨_, (reads_word .punctuator hw (inline_of_all hne hb)).2, by simp [token]⟩

theorem stands_emit (r : Reading) (kind : TokenKind) (n : Nat) :
    Stands (r.emit kind n).tokens r.next kind (r.rest.take n) :=
  ⟨r.token kind n, Array.getElem?_push_size, rfl, rfl⟩

/-- A sign that is read stands at the next index. -/
theorem stands_sign {word : List Char} (hw : r.startsWith word = true) :
    Stands (r.emit .punctuator word.length).tokens r.next .punctuator word := by
  have h := stands_emit r .punctuator word.length
  rwa [← List.prefix_iff_eq_take.mp (List.isPrefixOf_iff_prefix.mp hw)] at h

theorem last_eq (h : r.next < s.next) : s.last + 1 = s.next := by
  simp only [last, next] at *
  omega

/-! ## Expressions and mustaches -/

theorem not_isBlank_of_skipBlanks {c : Char} {rest : List Char}
    (h : r.skipBlanks.rest = c :: rest) : isBlank c = false := by
  rw [rest_skipBlanks] at h
  have := List.head?_dropWhile_not isBlank r.rest
  rw [h] at this
  simpa using this

/-- A token of an expression is read. -/
theorem readsMarkup_lexeme {c : Char} {rest : List Char} (hr : r.skipBlanks.rest = c :: rest) :
    ReadsMarkup r.skipBlanks
      (r.skipBlanks.emit (expressionLexeme c rest).1 ((expressionLexeme c rest).2 + 1)) := by
  obtain ⟨hle, hsolid, hkind⟩ := expressionLexeme_spec rest (not_isBlank_of_skipBlanks hr)
  have hlen : (expressionLexeme c rest).2 + 1 ≤ r.skipBlanks.rest.length := by
    rw [hr, List.length_cons]
    omega
  have htake : r.skipBlanks.rest.take ((expressionLexeme c rest).2 + 1) =
      c :: rest.take (expressionLexeme c rest).2 := by
    rw [hr, List.take_succ_cons]
  refine readsMarkup_emit hlen ?_ ?_
  · rw [htake]
    rcases hkind with hk | ⟨hk, hn⟩
    · rw [hk]
      exact hsolid
    · rw [hk]
      exact ⟨hsolid, hn⟩
  · rcases hkind with hk | ⟨hk, -⟩ <;> rw [hk] <;> decide

theorem reads_readExpression {opened : Cursor} {depth : Nat}
    (h : readExpression opened depth r = .ok s) : ReadsMarkup r s ∧ r.next < s.next := by
  fun_induction readExpression opened depth r with
  | case1 => cases h
  | case2 depth r c rest hr hd =>
    cases h
    have hw : r.skipBlanks.startsWith ['}'] = true := by simp [startsWith, hr, hd.1]
    have := readsMarkup_sign hw (by simp) (by decide)
    exact ⟨(readsMarkup_skipBlanks r).trans this, by simp⟩
  | case3 depth r c rest hr hd lexeme ih =>
    obtain ⟨h1, h2⟩ := ih h
    simp only [next_emit, next_skipBlanks] at h2
    exact ⟨((readsMarkup_skipBlanks r).trans (readsMarkup_lexeme hr)).trans h1, by omega⟩

theorem reads_readKeyword {word : List Char} (h : readKeyword r = .ok (word, s)) :
    ReadsMarkup r s ∧ s.next = r.next + 1 ∧ Stands s.tokens r.next .name word := by
  unfold readKeyword at h
  simp only at h
  split at h
  · cases h
  · next hw =>
    cases h
    have hle := (List.takeWhile_prefix (l := r.skipBlanks.rest) isAsciiLetter).length_le
    have hadm : TokenKind.Admits .name
        (r.skipBlanks.rest.take (r.skipBlanks.rest.takeWhile isAsciiLetter).length) := by
      rw [take_length_takeWhile]
      exact inline_keyword (by simpa using hw)
    have hstands := stands_emit r.skipBlanks .name
      (r.skipBlanks.rest.takeWhile isAsciiLetter).length
    rw [take_length_takeWhile] at hstands
    exact ⟨(readsMarkup_skipBlanks r).trans (readsMarkup_emit hle hadm (by decide)), by simp,
      hstands⟩

theorem mustache_fits {m : Mustache} (h : ReadsMarkup r s) (hlt : r.next + 1 < s.next)
    (hfirst : m.first = r.next) (hlast : m.last = s.last) : m.Fits s.tokens := by
  have hl : s.last + 1 = s.next := last_eq (r := r) (by omega)
  refine ⟨by omega, ?_⟩
  rw [hfirst, hlast, hl]
  exact h.marked

theorem reads_readMustache {m : Mustache} (hr : r.startsWith ['{'] = true)
    (h : readMustache r = .ok (m, s)) :
    ReadsMarkup r s ∧ m.first = r.next ∧ m.last + 1 = s.next ∧ m.Fits s.tokens := by
  unfold readMustache at h
  split at h
  · next hat =>
    obtain ⟨⟨word, s1⟩, h1, h⟩ := bind_eq_ok.mp h
    obtain ⟨s2, h2, h⟩ := bind_eq_ok.mp h
    cases h
    have h0 := readsMarkup_sign hat (by simp) (by decide)
    obtain ⟨h3, h4, -⟩ := reads_readKeyword h1
    obtain ⟨h5, h6⟩ := reads_readExpression h2
    have h7 := (h0.trans h3).trans h5
    simp only [next_emit] at h4
    exact ⟨h7, rfl, last_eq (r := r) (by omega), mustache_fits h7 (by omega) rfl rfl⟩
  · obtain ⟨s2, h2, h⟩ := bind_eq_ok.mp h
    cases h
    have h0 := readsMarkup_sign hr (by simp) (by decide)
    obtain ⟨h5, h6⟩ := reads_readExpression h2
    rw [next_emit] at h6
    have h7 := h0.trans h5
    exact ⟨h7, rfl, last_eq (r := r) (by omega), mustache_fits h7 (by omega) rfl rfl⟩

theorem reads_readBlockTag {b : BlockTag} {sign : Char} (hb : isBlank sign = false)
    (hr : r.startsWith ['{', sign] = true) (h : readBlockTag r = .ok (b, s)) :
    ReadsMarkup r s ∧ b.first = r.next ∧ b.last + 1 = s.next ∧ b.Fits s.tokens := by
  unfold readBlockTag at h
  obtain ⟨⟨word, s1⟩, h1, h⟩ := bind_eq_ok.mp h
  obtain ⟨s2, h2, h⟩ := bind_eq_ok.mp h
  obtain ⟨rfl, rfl⟩ := Prod.mk.inj (Except.ok.inj h)
  have h0 := readsMarkup_sign hr (by simp) (word_blockSign hb)
  obtain ⟨h3, h4, hword⟩ := reads_readKeyword h1
  obtain ⟨h5, h6⟩ := reads_readExpression h2
  have h7 := (h0.trans h3).trans h5
  rw [next_emit] at h4 hword
  have hl : s2.last + 1 = s2.next := last_eq (r := r) (by omega)
  refine ⟨h7, rfl, hl, ⟨?_, ?_, hword.mono h5.extends⟩⟩
  · show r.next < s2.last
    omega
  · show Marked s2.tokens r.next (s2.last + 1)
    rw [hl]
    exact h7.marked

/-! ## Attributes -/

/-- The mustaches of a value lie between two indices, one after the other. -/
structure ValuesFit (tokens : Array Token) (lo hi : Nat) (ms : List Mustache) : Prop where
  within : ∀ m ∈ ms, m.Fits tokens ∧ lo ≤ m.first ∧ m.last < hi
  apart : ms.Pairwise Mustache.Precedes

theorem ValuesFit.nil {tokens : Array Token} {lo hi : Nat} : ValuesFit tokens lo hi [] :=
  ⟨by simp, .nil⟩

theorem ValuesFit.mono {tokens more : Array Token} {lo hi top : Nat} {ms : List Mustache}
    (h : ValuesFit tokens lo hi ms) (he : Extends tokens more) (hle : hi ≤ top) :
    ValuesFit more lo top ms :=
  ⟨fun m hm => ⟨(h.within m hm).1.mono he, (h.within m hm).2.1,
    Nat.lt_of_lt_of_le (h.within m hm).2.2 hle⟩, h.apart⟩

/-- One more mustache behind the others. -/
theorem ValuesFit.concat {tokens : Array Token} {lo mid hi : Nat} {ms : List Mustache}
    {m : Mustache} (h : ValuesFit tokens lo mid ms) (hm : m.Fits tokens) (hlo : lo ≤ m.first)
    (hmid : mid ≤ m.first) (hhi : m.last < hi) : ValuesFit tokens lo hi (ms ++ [m]) := by
  have hlt := hm.lt
  refine ⟨fun x hx => ?_, List.pairwise_append.mpr ⟨h.apart, List.pairwise_singleton _ _, ?_⟩⟩
  · rcases List.mem_append.mp hx with hx | hx
    · obtain ⟨h1, h2, h3⟩ := h.within x hx
      exact ⟨h1, h2, by omega⟩
    · rw [List.mem_singleton.mp hx]
      exact ⟨hm, hlo, hhi⟩
  · intro x hx y hy
    rw [List.mem_singleton.mp hy]
    exact Nat.lt_of_lt_of_le (h.within x hx).2.2 hmid

/-- Content without the blanks between its lines is read. -/
theorem readsMarkup_run (content : TokenKind) {n : Nat}
    (hc : ∀ text, Inline text → content.Admits text) (hk : content ≠ .htmlText) (r : Reading) :
    ReadsMarkup r (r.run none content n) := by
  obtain ⟨ts, h1, h2, -⟩ := reads_run none content (by simp) hc n r
  refine ⟨ts, h1, fun t ht => ?_⟩
  rcases h2 t ht with h | h
  · rwa [h]
  · cases h

theorem readsMarkup_literals {n : Nat} (r : Reading) : ReadsMarkup r (r.run none .literal n) :=
  readsMarkup_run .literal (fun _ h => h) (by decide) r

/-- The content of a raw element ends where a closing tag begins. -/
theorem startsWith_run {name : List Char} {n : Nat} (h : rawEnd? name r.rest = some n) :
    (r.run none .rawText n).startsWith ['<', '/'] = true := by
  have := prefix_of_closesRaw (rawEnd?_spec h).2
  rwa [← rest_run none .rawText n r] at this

theorem reads_readQuoted {quote : Char} {values ms : List Mustache} {lo : Nat}
    (hq : isBlank quote = false) (hv : ValuesFit r.tokens lo r.next values) (hlo : lo ≤ r.next)
    (h : readQuoted quote values r = .ok (ms, s)) :
    ReadsMarkup r s ∧ r.next < s.next ∧ ValuesFit s.tokens lo s.next ms := by
  fun_induction readQuoted quote values r with
  | case1 => cases h
  | case2 values r rest hr =>
    cases h
    have hw : r.startsWith [quote] = true := by simp [startsWith, hr]
    have h1 := readsMarkup_sign hw (by simp) (by simpa [Word] using hq)
    exact ⟨h1, by simp, hv.mono h1.extends (by simp)⟩
  | case3 => cases h
  | case4 values r rest m t hm hr hc ih =>
    obtain ⟨h1, h2, h3, h4⟩ := reads_readMustache (by simp [startsWith, hr]) hm
    have hlt := h4.lt
    have hv' : ValuesFit t.tokens lo t.next (values ++ [m]) :=
      (hv.mono h1.extends (Nat.le_refl _)).concat h4 (by omega) (by omega) (by omega)
    obtain ⟨h5, h6, h7⟩ := ih hv' (by omega) h
    exact ⟨h1.trans h5, by omega, h7⟩
  | case5 values r c rest hr hc hb n ih =>
    have h1 := readsMarkup_literals (n := n + 1) r
    have hle := h1.next_le
    obtain ⟨h5, h6, h7⟩ := ih (hv.mono h1.extends hle) (by omega) h
    exact ⟨h1.trans h5, by omega, h7⟩

theorem reads_readValue {ms : List Mustache} (h : readValue r = .ok (ms, s)) :
    ReadsMarkup r s ∧ r.next < s.next ∧ ValuesFit s.tokens r.next s.next ms := by
  have none_yet : ∀ t : Reading, ValuesFit t.tokens r.next t.next [] := fun _ => .nil
  unfold readValue at h
  split at h
  · next hq =>
    have h0 := readsMarkup_sign hq (by simp) (by decide)
    obtain ⟨h1, h2, h3⟩ := reads_readQuoted rfl (none_yet _) (by simp) h
    rw [next_emit] at h2
    exact ⟨h0.trans h1, by omega, h3⟩
  split at h
  · next hq =>
    have h0 := readsMarkup_sign hq (by simp) (by decide)
    obtain ⟨h1, h2, h3⟩ := reads_readQuoted rfl (none_yet _) (by simp) h
    rw [next_emit] at h2
    exact ⟨h0.trans h1, by omega, h3⟩
  split at h
  · next hb =>
    obtain ⟨⟨m, t⟩, h1, h⟩ := bind_eq_ok.mp h
    cases h
    obtain ⟨h1, h2, h3, h4⟩ := reads_readMustache hb h1
    have hlt := h4.lt
    exact ⟨h1, by omega, ValuesFit.nil.concat h4 (by omega) (Nat.zero_le _) (by omega)⟩
  · split at h
    · next n hn =>
      cases h
      obtain ⟨hle, hi⟩ := unquotedLength?_spec hn
      exact ⟨readsMarkup_emit hle hi (by decide), by simp, none_yet _⟩
    · cases h

theorem reads_readAttribute {a : Attribute} (h : readAttribute r = .ok (a, s)) :
    ReadsMarkup r s ∧ a.first = r.next ∧ a.last + 1 = s.next ∧ a.Fits s.tokens := by
  unfold readAttribute at h
  split at h
  · next hb =>
    obtain ⟨⟨m, t⟩, h1, h⟩ := bind_eq_ok.mp h
    obtain ⟨rfl, rfl⟩ := Prod.mk.inj (Except.ok.inj h)
    obtain ⟨h1, h2, h3, h4⟩ := reads_readMustache hb h1
    refine ⟨h1, h2, h3, Nat.le_of_lt h4.lt, h4.marked, by simp, by simp, fun x hx => ?_,
      List.pairwise_singleton _ _⟩
    rw [List.mem_singleton.mp hx]
    exact ⟨h4, Nat.le_refl _, Nat.le_refl _⟩
  · simp only at h
    split at h
    · cases h
    · next hn =>
      have h0 : ReadsMarkup r (r.emit .name (attributeNameLength r.rest)) :=
        readsMarkup_emit (attributeNameLength_le _) (inline_attributeName hn)
          (by decide)
      have hkey : (r.emit .name (attributeNameLength r.rest)).tokens[r.next]? =
          some (r.token .name (attributeNameLength r.rest)) := by
        rw [tokens_emit]
        exact Array.getElem?_push_size
      split at h
      · next heq =>
        obtain ⟨⟨ms, t⟩, h2, h⟩ := bind_eq_ok.mp h
        obtain ⟨rfl, rfl⟩ := Prod.mk.inj (Except.ok.inj h)
        have h1 := readsMarkup_sign heq (by simp) (by decide)
        obtain ⟨h3, h4, h5⟩ := reads_readValue h2
        have hall := (((h0.trans (readsMarkup_skipBlanks _)).trans h1).trans
          (readsMarkup_skipBlanks _)).trans h3
        simp only [next_skipBlanks, next_emit] at h4
        have hl : t.last + 1 = t.next := last_eq (r := r) (by omega)
        refine ⟨hall, rfl, hl, by show r.next ≤ t.last; omega, ?_, by simp, ?_, fun x hx => ?_,
          h5.apart⟩
        · show Marked t.tokens r.next (t.last + 1)
          rw [hl]
          exact hall.marked
        · rintro _ ⟨⟩
          have hlater := (((readsMarkup_skipBlanks _).trans h1).trans
            (readsMarkup_skipBlanks _)).trans h3
          exact ⟨_, hlater.extends _ _ hkey, rfl⟩
        · obtain ⟨h6, h7, h8⟩ := h5.within x hx
          simp only [next_skipBlanks, next_emit] at h7
          exact ⟨h6, by show r.next ≤ _; omega, by show _ ≤ t.last; omega⟩
      · obtain ⟨rfl, rfl⟩ := Prod.mk.inj (Except.ok.inj h)
        refine ⟨h0, rfl, by simp, Nat.le_refl _, ?_, by simp, ?_, by simp, .nil⟩
        · have := h0.marked
          rwa [next_emit] at this
        · rintro _ ⟨⟩
          exact ⟨_, hkey, rfl⟩

/-! ## Tags of elements -/

theorem reads_readAttributes {before as : List Attribute} {closed : Bool} {lo : Nat}
    (hb : AttributesTile r.tokens lo before r.next)
    (h : readAttributes before r = .ok (as, closed, s)) :
    ReadsMarkup r s ∧ s.last + 1 = s.next ∧ AttributesTile s.tokens lo as s.last ∧
      Stands s.tokens s.last .punctuator (if closed then ['/', '>'] else ['>']) := by
  fun_induction readAttributes before r with
  | case1 => cases h
  | case2 before r c rest hr h1 =>
    cases h
    have h0 := (readsMarkup_skipBlanks r).trans (readsMarkup_sign h1 (by simp) (by decide))
    have hl : (r.skipBlanks.emit .punctuator 2).last = r.next := by simp [last, next]
    refine ⟨h0, last_eq (r := r) (by simp), ?_⟩
    rw [hl]
    exact ⟨hb.mono h0.extends, stands_sign h1⟩
  | case3 before r c rest hr h1 h2 =>
    cases h
    have h0 := (readsMarkup_skipBlanks r).trans (readsMarkup_sign h2 (by simp) (by decide))
    have hl : (r.skipBlanks.emit .punctuator 1).last = r.next := by simp [last, next]
    refine ⟨h0, last_eq (r := r) (by simp), ?_⟩
    rw [hl]
    exact ⟨hb.mono h0.extends, stands_sign h2⟩
  | case4 => cases h
  | case5 before r c rest hr h1 h2 a t ha ih =>
    obtain ⟨h3, h4, h5, h6⟩ := reads_readAttribute ha
    have h0 := (readsMarkup_skipBlanks r).trans h3
    have hb' := (hb.mono h0.extends).concat (a := a) (by rw [h4, next_skipBlanks]) h6
    rw [h5] at hb'
    obtain ⟨h7, h8, h9⟩ := ih hb' h
    exact ⟨h0.trans h7, h8, h9⟩

/-- The name of an element behind its opening sign. -/
theorem readsMarkup_tagName (hn : tagNameLength r.rest.tail ≠ 0) :
    Inline ((r.emit .punctuator 1).rest.take (tagNameLength (r.emit .punctuator 1).rest)) ∧
      ReadsMarkup (r.emit .punctuator 1)
        ((r.emit .punctuator 1).emit .name (tagNameLength (r.emit .punctuator 1).rest)) := by
  have hrest : (r.emit .punctuator 1).rest = r.rest.tail := by simp
  have hinline : Inline ((r.emit .punctuator 1).rest.take
      (tagNameLength (r.emit .punctuator 1).rest)) := inline_tagName (by rwa [hrest])
  exact ⟨hinline, readsMarkup_emit (tagNameLength_le _) hinline (by decide)⟩

theorem reads_readStartTag {tag : StartTag} {name : List Char} (hr : r.startsWith ['<'] = true)
    (hn : tagNameLength r.rest.tail ≠ 0) (h : readStartTag r = .ok (tag, name, s)) :
    (ReadsMarkup r s ∧ tag.first = r.next ∧ tag.last + 1 = s.next ∧ tag.Fits s.tokens) ∧
      Inline name ∧ Stands s.tokens tag.name .name name := by
  unfold readStartTag at h
  obtain ⟨⟨as, closed, t⟩, h1, h⟩ := bind_eq_ok.mp h
  obtain ⟨rfl, hname⟩ := Prod.mk.inj (Except.ok.inj h)
  obtain ⟨rfl, rfl⟩ := Prod.mk.inj hname
  have h0 := readsMarkup_sign hr (by simp) (by decide)
  obtain ⟨hinline, h2⟩ := readsMarkup_tagName hn
  rw [length_take_tagName] at h1
  obtain ⟨h3, h4, h5, h6⟩ : ReadsMarkup _ t ∧ t.last + 1 = t.next ∧
      AttributesTile t.tokens (r.next + 2) as t.last ∧
      Stands t.tokens t.last .punctuator (if closed then ['/', '>'] else ['>']) :=
    reads_readAttributes (by show r.next + 2 = _; simp) h1
  have hall := (h0.trans h2).trans h3
  have hname := stands_emit (r.emit .punctuator 1) .name (tagNameLength (r.emit .punctuator 1).rest)
  rw [next_emit] at hname
  refine ⟨⟨hall, rfl, h4, rfl, h5, ?_, ?_, h6⟩, hinline, hname.mono h3.extends⟩
  · show Marked _ r.next (_ + 1)
    rw [h4]
    exact hall.marked
  · exact (stands_sign hr).mono (h2.trans h3).extends

theorem reads_readEndTag {name : List Char} {tag : EndTag} (hr : r.startsWith ['<', '/'] = true)
    (hname : Inline name) (h : readEndTag name r = .ok (tag, s)) :
    (ReadsMarkup r s ∧ tag.first = r.next ∧ tag.last + 1 = s.next ∧ tag.Fits s.tokens) ∧
      Stands s.tokens (tag.first + 1) .name name := by
  have h0 := readsMarkup_sign hr (by simp) (by decide)
  unfold readEndTag at h
  simp only at h
  split at h
  · cases h
  · next hn =>
    split at h
    · next hgt =>
      obtain ⟨rfl, rfl⟩ := Prod.mk.inj (Except.ok.inj h)
      have hn := not_not.mp hn
      have h1 : ReadsMarkup (r.emit .punctuator 2).skipBlanks
          ((r.emit .punctuator 2).skipBlanks.emit .name
            (tagNameLength (r.emit .punctuator 2).skipBlanks.rest)) :=
        readsMarkup_emit (tagNameLength_le _) (by rw [hn]; exact hname) (by decide)
      have h2 := readsMarkup_sign hgt (by simp) (by decide)
      have hall := (((h0.trans (readsMarkup_skipBlanks _)).trans h1).trans
        (readsMarkup_skipBlanks _)).trans h2
      have hnext : (((r.emit .punctuator 2).skipBlanks.emit .name
          (tagNameLength (r.emit .punctuator 2).skipBlanks.rest)).skipBlanks.emit
            .punctuator 1).next = r.next + 3 := by simp
      have hl := last_eq (r := r) (by rw [hnext]; omega)
      have hlast := Nat.add_right_cancel (hl.trans hnext)
      have hclosing := stands_sign hgt
      simp only [next_skipBlanks, next_emit] at hclosing
      have hnamed := stands_emit (r.emit .punctuator 2).skipBlanks .name
        (tagNameLength (r.emit .punctuator 2).skipBlanks.rest)
      rw [hn] at hnamed
      simp only [next_skipBlanks, next_emit] at hnamed
      have hlater := (readsMarkup_skipBlanks _).trans h2
      refine ⟨⟨hall, rfl, hl, hlast, ?_, ?_, ?_⟩, hnamed.mono hlater.extends⟩
      · show Marked _ r.next (last _ + 1)
        rw [hl]
        exact hall.marked
      · exact (stands_sign hr).mono (((readsMarkup_skipBlanks _).trans h1).trans hlater).extends
      · show Stands _ (last _) _ _
        rw [hlast]
        exact hclosing
    · cases h

end Reading

end MarkupIndent.Markup
