import MarkupIndent.Markup.Reading
import MarkupIndent.Proofs.Lexemes
import MarkupIndent.Proofs.Lines

/-!
# Tokens are slices of the source

`Reads r ts s` says that a reading goes from `r` to `s` by emitting the tokens `ts`, where all
that it skips is blank and every token is made of what its kind admits. Every function that reads
is of this form, so what holds of the tokens of a text is proved here once, for `emit` and `skip`.

* `Reads.trans`, `Reads.tokens`: readings compose, and only add tokens.
* `Tokenized`: the tokens are slices of the source in order, with only blanks between them.
* `Tracks`: what a reading knows of its source; `tracks_of_reads` carries it along.
-/

namespace MarkupIndent.Markup

open Text

/-! ## Going from one reading to another -/

/-- What a token of a kind is made of. -/
def TokenKind.Admits (kind : TokenKind) (text : List Char) : Prop :=
  match kind with
  | .htmlText => (text ≠ [] ∧ ∀ c ∈ text, isBlank c = true) ∨ Inline text
  | .comment | .expression => Solid text
  | _ => Inline text

theorem TokenKind.Admits.ne_nil {kind : TokenKind} {text : List Char} (h : kind.Admits text) :
    text ≠ [] := by
  cases kind with
  | htmlText => exact h.elim And.left fun h => h.1.ne_nil
  | comment | expression => exact Solid.ne_nil h
  | punctuator | name | literal | rawText => exact Solid.ne_nil h.1

theorem TokenKind.Admits.solid {kind : TokenKind} {text : List Char} (h : kind.Admits text)
    (hk : kind ≠ .htmlText) : Solid text := by
  cases kind with
  | htmlText => exact absurd rfl hk
  | comment | expression => exact h
  | punctuator | name | literal | rawText => exact h.1

/-- The token that `emit` makes of the next `n` characters. -/
def Reading.token (r : Reading) (kind : TokenKind) (n : Nat) : Token :=
  { index := r.tokens.size
    kind := kind
    text := r.rest.take n
    start := r.place.offset
    stop := r.place.offset + n
    line := r.place.line
    column := r.place.column }

namespace Reading

@[simp] theorem tokens_emit (r : Reading) (kind : TokenKind) (n : Nat) :
    (r.emit kind n).tokens = r.tokens.push (r.token kind n) := rfl

@[simp] theorem next_emit (r : Reading) (kind : TokenKind) (n : Nat) :
    (r.emit kind n).next = r.next + 1 := by
  simp [next]

/-- One reading goes on to another and emits some tokens on the way. -/
inductive Reads : Reading → List Token → Reading → Prop
  | done (r : Reading) : Reads r [] r
  | skip {r s : Reading} {ts : List Token} {n : Nat} : Reads r ts s → n ≤ s.rest.length →
      (∀ c ∈ s.rest.take n, isBlank c = true) → Reads r ts (s.skip n)
  | emit {r s : Reading} {ts : List Token} {kind : TokenKind} {n : Nat} : Reads r ts s →
      n ≤ s.rest.length → kind.Admits (s.rest.take n) →
      Reads r (ts ++ [s.token kind n]) (s.emit kind n)

variable {r s t : Reading} {ts us : List Token}

theorem Reads.trans (h : Reads r ts s) (h' : Reads s us t) : Reads r (ts ++ us) t := by
  induction h' with
  | done => simpa using h
  | skip _ hn hb ih => exact .skip ih hn hb
  | emit _ hn hk ih =>
    rw [← List.append_assoc]
    exact .emit ih hn hk

theorem Reads.tokens (h : Reads r ts s) : s.tokens = r.tokens ++ ts.toArray := by
  induction h with
  | done => simp
  | skip _ _ _ ih => exact ih
  | emit _ _ _ ih => simp [ih]

theorem Reads.next (h : Reads r ts s) : s.next = r.next + ts.length := by
  simp [Reading.next, h.tokens]

/-- A token that is read stays. -/
theorem Reads.getElem? (h : Reads r ts s) {i : Nat} {u : Token} (hu : r.tokens[i]? = some u) :
    s.tokens[i]? = some u := by
  have hi : i < r.tokens.size := (Array.getElem?_eq_some_iff.mp hu).1
  rw [h.tokens, Array.getElem?_append_left hi, hu]

theorem reads_emit {kind : TokenKind} {n : Nat} (hn : n ≤ r.rest.length)
    (hk : kind.Admits (r.rest.take n)) : Reads r [r.token kind n] (r.emit kind n) :=
  .emit (.done r) hn hk

theorem reads_skipBlanks (r : Reading) : Reads r [] r.skipBlanks := by
  refine .skip (.done r) (List.takeWhile_prefix _).length_le ?_
  rw [take_length_takeWhile]
  exact fun c hc => List.mem_takeWhile_imp hc

@[simp] theorem tokens_skipBlanks (r : Reading) : r.skipBlanks.tokens = r.tokens := rfl

@[simp] theorem next_skipBlanks (r : Reading) : r.skipBlanks.next = r.next := rfl

/-- A word of characters that are not blank becomes a token. -/
theorem reads_word (kind : TokenKind) {word : List Char} (hw : r.startsWith word = true)
    (hk : kind.Admits word) :
    word.length ≤ r.rest.length ∧ Reads r [r.token kind word.length] (r.emit kind word.length) := by
  have hpre : word <+: r.rest := List.isPrefixOf_iff_prefix.mp hw
  refine ⟨hpre.length_le, reads_emit hpre.length_le ?_⟩
  rwa [← List.prefix_iff_eq_take.mp hpre]

/-! ## Stretches -/

/-- Reading a stretch of text line by line emits tokens of the given kinds only, and at least one
if blanks become tokens. -/
theorem reads_readStretches {blank : Option TokenKind} {content : TokenKind}
    (hb : ∀ k ∈ blank, k = .htmlText) (hc : ∀ text, Inline text → content.Admits text)
    (text after : List Char) (r : Reading) (hr : r.rest = text ++ after) :
    ∃ ts, Reads r ts (readStretches blank content (stretches text) r) ∧
      (∀ t ∈ ts, t.kind = content ∨ blank = some t.kind) ∧
      (text ≠ [] → blank.isSome = true → ts ≠ []) := by
  fun_induction stretches text generalizing r with
  | case1 => exact ⟨[], .done r, by simp, by simp⟩
  | case2 c rest hcb n ih =>
    have hn : n ≤ rest.length := (List.takeWhile_prefix isBlank).length_le
    have htake : r.rest.take (n + 1) = c :: rest.takeWhile isBlank := by
      rw [hr, List.cons_append, List.take_succ_cons, List.take_append_of_le_length hn,
        take_length_takeWhile]
    have hdrop : r.rest.drop (n + 1) = rest.drop n ++ after := by
      rw [hr, List.cons_append, List.drop_succ_cons, List.drop_append_of_le_length hn]
    have hle : n + 1 ≤ r.rest.length := by
      rw [hr]
      simp only [List.length_append, List.length_cons]
      omega
    have hall : ∀ d ∈ r.rest.take (n + 1), isBlank d = true := by
      rw [htake]
      intro d hd
      rcases List.mem_cons.mp hd with rfl | hd
      · exact hcb
      · exact List.mem_takeWhile_imp hd
    cases blank with
    | none =>
      obtain ⟨ts, hts, hkinds, -⟩ := ih (r.skip (n + 1)) (by simpa using hdrop)
      exact ⟨ts, (Reads.skip (.done r) hle hall).trans hts, hkinds, by simp⟩
    | some kind =>
      obtain rfl := hb kind rfl
      obtain ⟨ts, hts, hkinds, -⟩ := ih (r.emit .htmlText (n + 1)) (by simpa using hdrop)
      have hadm : TokenKind.htmlText.Admits (r.rest.take (n + 1)) := .inl ⟨by simp [htake], hall⟩
      have he := reads_emit hle hadm
      refine ⟨_, he.trans hts, ?_, by simp⟩
      intro t ht
      rcases List.mem_cons.mp ht with rfl | ht
      · exact .inr rfl
      · exact hkinds t ht
  | case3 c rest hcb n ih =>
    have hn : n ≤ rest.length := contentTail_le rest
    have htake : r.rest.take (n + 1) = c :: rest.take n := by
      rw [hr, List.cons_append, List.take_succ_cons, List.take_append_of_le_length hn]
    have hdrop : r.rest.drop (n + 1) = rest.drop n ++ after := by
      rw [hr, List.cons_append, List.drop_succ_cons, List.drop_append_of_le_length hn]
    have hle : n + 1 ≤ r.rest.length := by
      rw [hr]
      simp only [List.length_append, List.length_cons]
      omega
    obtain ⟨ts, hts, hkinds, -⟩ := ih (r.emit content (n + 1)) (by simpa using hdrop)
    have hi : Inline (r.rest.take (n + 1)) := by
      rw [htake]
      exact inline_content (by simpa using hcb)
    refine ⟨_, (reads_emit hle (hc _ hi)).trans hts, ?_, by simp⟩
    intro t ht
    rcases List.mem_cons.mp ht with rfl | ht
    · exact .inl rfl
    · exact hkinds t ht

theorem reads_run (blank : Option TokenKind) (content : TokenKind)
    (hb : ∀ k ∈ blank, k = .htmlText) (hc : ∀ text, Inline text → content.Admits text)
    (n : Nat) (r : Reading) :
    ∃ ts, Reads r ts (r.run blank content n) ∧
      (∀ t ∈ ts, t.kind = content ∨ blank = some t.kind) ∧
      (0 < n → r.rest ≠ [] → blank.isSome = true → ts ≠ []) := by
  obtain ⟨ts, hts, hkinds, hne⟩ := reads_readStretches hb hc (r.rest.take n) (r.rest.drop n) r
    (List.take_append_drop n r.rest).symm
  refine ⟨ts, hts, hkinds, fun hn hr => hne ?_⟩
  intro he
  rcases List.take_eq_nil_iff.mp he with h | h
  · omega
  · exact hr h

/-- Each piece of content begins on a later line than the one before, as long as blanks become no
tokens: a piece goes on to the last character of its line that is not blank. -/
theorem lines_readStretches (content : TokenKind) (text after : List Char) (r : Reading)
    (hr : r.rest = text ++ after) :
    ∃ ts, (readStretches none content (stretches text) r).tokens = r.tokens ++ ts.toArray ∧
      ts.Pairwise (fun s t => s.line < t.line) ∧
      (∀ t ∈ ts, r.place.line + (text.takeWhile isBlank).count '\n' ≤ t.line) ∧
      ((∀ c ∈ text, isBlank c = true) → ts = []) := by
  fun_induction stretches text generalizing r with
  | case1 => exact ⟨[], by simp [readStretches], .nil, by simp, fun _ => rfl⟩
  | case2 c rest hcb n ih =>
    have hn : n ≤ rest.length := (List.takeWhile_prefix isBlank).length_le
    have htake : r.rest.take (n + 1) = c :: rest.takeWhile isBlank := by
      rw [hr, List.cons_append, List.take_succ_cons, List.take_append_of_le_length hn,
        take_length_takeWhile]
    have hdrop : (r.skip (n + 1)).rest = rest.drop n ++ after := by
      rw [rest_skip, hr, List.cons_append, List.drop_succ_cons, List.drop_append_of_le_length hn]
    obtain ⟨ts, h1, h2, h3, h4⟩ := ih (r.skip (n + 1)) hdrop
    refine ⟨ts, h1, h2, fun t ht => ?_, fun hall => h4 fun d hd =>
      hall d (List.mem_cons_of_mem _ (List.mem_of_mem_drop hd))⟩
    have hline : (r.skip (n + 1)).place.line =
        r.place.line + (c :: rest.takeWhile isBlank).count '\n' := by
      rw [← htake]
      exact line_over_from _ _
    have := h3 t ht
    rw [List.takeWhile_cons_of_pos hcb]
    omega
  | case3 c rest hcb n ih =>
    have hn : n ≤ rest.length := contentTail_le rest
    have hdrop : (r.emit content (n + 1)).rest = rest.drop n ++ after := by
      rw [rest_emit, hr, List.cons_append, List.drop_succ_cons, List.drop_append_of_le_length hn]
    obtain ⟨ts, h1, h2, h3, h4⟩ := ih (r.emit content (n + 1)) hdrop
    have hline : r.place.line ≤ (r.emit content (n + 1)).place.line :=
      (line_over_from _ _).symm ▸ Nat.le_add_right _ _
    have hblank := isBlank_after_content rest
    -- What follows has a line end before its next character, or no other character.
    have hlater : ∀ t ∈ ts, r.place.line < t.line := by
      intro t ht
      have hge := h3 t ht
      by_cases hmem : '\n' ∈ (rest.drop n).takeWhile isBlank
      · have := List.count_pos_iff.mpr hmem
        omega
      · rw [h4 (isBlank_of_no_newline hblank hmem)] at ht
        cases ht
    refine ⟨r.token content (n + 1) :: ts, ?_, List.pairwise_cons.mpr ⟨hlater, h2⟩, ?_, ?_⟩
    · rw [readStretches, h1, tokens_emit]
      simp
    · rw [List.takeWhile_cons_of_neg hcb]
      intro t ht
      rcases List.mem_cons.mp ht with rfl | ht
      · exact Nat.le_refl _
      · exact Nat.le_of_lt (hlater t ht)
    · intro hall
      exact absurd (hall c List.mem_cons_self) hcb

end Reading

/-! ## The tokens of a text -/

/-- A token is the slice of a text between its two offsets, at the place of the first. -/
structure TokenAt (text : List Char) (i : Nat) (t : Token) : Prop where
  index : t.index = i
  lt : t.start < t.stop
  le : t.stop ≤ text.length
  slice : t.text = (text.drop t.start).take (t.stop - t.start)
  line : t.line = (text.take t.start).count '\n' + 1
  column : t.column = (lastLine (text.take t.start)).length
  admits : t.kind.Admits t.text

/-- The tokens are those of a text up to an offset: slices in order, and blanks between them. -/
structure Tokenized (text : List Char) (upTo : Nat) (tokens : Array Token) : Prop where
  token : ∀ (i : Nat) (t : Token), tokens[i]? = some t → TokenAt text i t
  stop_le : ∀ (i : Nat) (t : Token), tokens[i]? = some t → t.stop ≤ upTo
  ordered : ∀ (i j : Nat) (s t : Token), i < j → tokens[i]? = some s → tokens[j]? = some t →
    s.stop ≤ t.start
  gaps : ∀ (o : Nat) (c : Char), o < upTo → text[o]? = some c →
    (∀ (i : Nat) (t : Token), tokens[i]? = some t → ¬ (t.start ≤ o ∧ o < t.stop)) →
    isBlank c = true

/-- A reading stands in a text at the place that it says, and has its tokens up to there. -/
structure Tracks (text : List Char) (r : Reading) : Prop where
  le : r.place.offset ≤ text.length
  rest : r.rest = text.drop r.place.offset
  place : r.place = Cursor.start.over (text.take r.place.offset)
  tokens : Tokenized text r.place.offset r.tokens

theorem tracks_start (text : List Char) : Tracks text (.start text) where
  le := Nat.zero_le _
  rest := rfl
  place := rfl
  tokens := by constructor <;> simp [Reading.start, Cursor.start]

section Step

variable {text : List Char} {r : Reading} {n : Nat}

theorem place_skip (h : Tracks text r) (hn : n ≤ r.rest.length) :
    (r.skip n).place = Cursor.start.over (text.take (r.place.offset + n)) ∧
      (r.skip n).place.offset = r.place.offset + n := by
  have htake : text.take (r.place.offset + n) = text.take r.place.offset ++ r.rest.take n := by
    rw [List.take_add, h.rest]
  constructor
  · rw [htake, Cursor.over_append, ← h.place]
    rfl
  · show (r.place.over (r.rest.take n)).offset = _
    rw [Cursor.offset_over, List.length_take, Nat.min_eq_left hn]

theorem tracks_skip (h : Tracks text r) (hn : n ≤ r.rest.length)
    (hb : ∀ c ∈ r.rest.take n, isBlank c = true) : Tracks text (r.skip n) := by
  obtain ⟨hplace, hoff⟩ := place_skip h hn
  have hlen : r.rest.length = text.length - r.place.offset := by rw [h.rest, List.length_drop]
  have hle := h.le
  refine ⟨by omega, ?_, by rw [hoff]; exact hplace, ?_⟩
  · rw [hoff, Reading.rest_skip, h.rest, List.drop_drop]
  · rw [hoff]
    refine ⟨h.tokens.token, ?_, h.tokens.ordered, ?_⟩
    · intro i t ht
      have := h.tokens.stop_le i t ht
      omega
    · intro o c ho hc hfree
      rcases Nat.lt_or_ge o r.place.offset with hlt | hge
      · exact h.tokens.gaps o c hlt hc hfree
      · refine hb c (List.mem_iff_getElem?.mpr ⟨o - r.place.offset, ?_⟩)
        rw [List.getElem?_take_of_lt (by omega), h.rest, List.getElem?_drop]
        rw [← hc]
        congr 1
        omega

theorem tokenAt_token (h : Tracks text r) {kind : TokenKind} (hn : n ≤ r.rest.length)
    (hk : kind.Admits (r.rest.take n)) : TokenAt text r.tokens.size (r.token kind n) := by
  have hlen : r.rest.length = text.length - r.place.offset := by rw [h.rest, List.length_drop]
  have hle := h.le
  have hpos : 0 < n := by
    rcases Nat.eq_zero_or_pos n with rfl | hp
    · exact absurd rfl hk.ne_nil
    · exact hp
  refine ⟨rfl, ?_, ?_, ?_, ?_, ?_, hk⟩
  · simp only [Reading.token]
    omega
  · simp only [Reading.token]
    omega
  · simp only [Reading.token, Nat.add_sub_cancel_left, h.rest]
  · show r.place.line = _
    rw [h.place, line_over]
    rfl
  · show r.place.column = _
    rw [h.place, column_over]
    rfl

theorem tracks_emit (h : Tracks text r) {kind : TokenKind} (hn : n ≤ r.rest.length)
    (hk : kind.Admits (r.rest.take n)) : Tracks text (r.emit kind n) := by
  obtain ⟨hplace, hoff⟩ := place_skip h hn
  have hat := tokenAt_token h hn hk
  have hlen : r.rest.length = text.length - r.place.offset := by rw [h.rest, List.length_drop]
  have hle := h.le
  have hplace' : (r.emit kind n).place = (r.skip n).place := rfl
  have cases_push : ∀ i t, (r.emit kind n).tokens[i]? = some t →
      r.tokens[i]? = some t ∨ (i = r.tokens.size ∧ t = r.token kind n) := by
    intro i t ht
    rw [Reading.tokens_emit, Array.getElem?_push] at ht
    split at ht
    · next hi => exact .inr ⟨hi, (Option.some.inj ht).symm⟩
    · exact .inl ht
  refine ⟨by rw [hplace', hoff]; omega, ?_, by rw [hplace', hoff]; exact hplace, ?_⟩
  · rw [hplace', hoff, Reading.rest_emit, h.rest, List.drop_drop]
  · rw [hplace', hoff]
    refine ⟨?_, ?_, ?_, ?_⟩
    · intro i t ht
      rcases cases_push i t ht with ht | ⟨rfl, rfl⟩
      · exact h.tokens.token i t ht
      · exact hat
    · intro i t ht
      rcases cases_push i t ht with ht | ⟨rfl, rfl⟩
      · have := h.tokens.stop_le i t ht
        omega
      · exact Nat.le_refl _
    · intro i j s t hij hs ht
      rcases cases_push i s hs with hs | ⟨rfl, rfl⟩
      · rcases cases_push j t ht with ht | ⟨rfl, rfl⟩
        · exact h.tokens.ordered i j s t hij hs ht
        · exact h.tokens.stop_le i s hs
      · rcases cases_push j t ht with ht | ⟨rfl, rfl⟩
        · have := (Array.getElem?_eq_some_iff.mp ht).1
          omega
        · omega
    · intro o c ho hc hfree
      rcases Nat.lt_or_ge o r.place.offset with hlt | hge
      · refine h.tokens.gaps o c hlt hc fun i t ht => hfree i t ?_
        have hi : i < r.tokens.size := (Array.getElem?_eq_some_iff.mp ht).1
        rw [Reading.tokens_emit, Array.getElem?_push_lt hi, ← Array.getElem?_eq_getElem hi, ht]
      · refine absurd ⟨hge, ho⟩ (hfree r.tokens.size (r.token kind n) ?_)
        rw [Reading.tokens_emit, Array.getElem?_push_size]

end Step

/-- **Reading keeps track of the source.** -/
theorem tracks_of_reads {text : List Char} {r s : Reading} {ts : List Token}
    (h : Reading.Reads r ts s) (hr : Tracks text r) : Tracks text s := by
  induction h with
  | done => exact hr
  | skip _ hn hb ih => exact tracks_skip ih hn hb
  | emit _ hn hk ih => exact tracks_emit ih hn hk

end MarkupIndent.Markup
