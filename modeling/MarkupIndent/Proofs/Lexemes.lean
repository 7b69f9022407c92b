import Mathlib.Data.List.TakeWhile
import MarkupIndent.Markup.Lexeme
import MarkupIndent.Proofs.Reindented

/-!
# What lexemes are made of

Every lexeme but a blank stretch begins and ends with a character that is not blank, and only
strings, comments and blank stretches go over line ends.

* `Solid`: a text with such ends; `Inline`: a solid text within one line.
* `inline_tagName`, `inline_attributeName`, `inline_unquoted`, `inline_keyword`: names and values.
* `inline_content`: a stretch of content, the rest of a line at most.
* `solid_comment`, `expressionLexeme_spec`: comments and the tokens of expressions.
-/

namespace MarkupIndent.Markup

open Text

/-- A text that begins and ends with a character that is not blank. -/
def Solid (text : List Char) : Prop :=
  (∃ c, text.head? = some c ∧ isBlank c = false) ∧ ∃ c, text.getLast? = some c ∧ isBlank c = false

/-- A solid text within one line. -/
def Inline (text : List Char) : Prop :=
  Solid text ∧ '\n' ∉ text

theorem Solid.ne_nil {text : List Char} (h : Solid text) : text ≠ [] := by
  obtain ⟨⟨c, hc, -⟩, -⟩ := h
  rintro rfl
  cases hc

theorem solid_of_ends {c d : Char} {text : List Char} (hc : isBlank c = false)
    (hd : isBlank d = false) (hl : (c :: text).getLast? = some d) : Solid (c :: text) :=
  ⟨⟨c, rfl, hc⟩, d, hl, hd⟩

theorem newline_ne_of_not_isBlank {c : Char} (h : isBlank c = false) : c ≠ '\n' := by
  rintro rfl
  rw [isBlank_newline] at h
  cases h

theorem inline_of_all {text : List Char} (hne : text ≠ []) (h : Word text) :
    Inline text := by
  refine ⟨⟨⟨text.head hne, List.head?_eq_some_head hne, h _ (List.head_mem hne)⟩,
    text.getLast hne, List.getLast?_eq_some_getLast hne, h _ (List.getLast_mem hne)⟩, ?_⟩
  intro hn
  exact newline_ne_of_not_isBlank (h _ hn) rfl

/-! ## Names and values -/

/-- No blank is a letter or a number. -/
theorem not_isBlank_of_isWord {c : Char} (h : isWord c = true) : isBlank c = false := by
  have key : ∀ n ∈ [0x85, 0xa0, 0x1680, 0x2000, 0x2001, 0x2002, 0x2003, 0x2004, 0x2005, 0x2006,
      0x2007, 0x2008, 0x2009, 0x200a, 0x2028, 0x2029, 0x202f, 0x205f, 0x3000],
      inRanges wordRanges n = false := by decide +kernel
  by_contra hb
  have hb : isBlank c = true := by simpa using hb
  simp only [isBlank, Bool.or_eq_true, Bool.and_eq_true, decide_eq_true_eq, beq_iff_eq] at hb
  unfold isWord at h
  split at h
  · simp only [isAsciiLetter, isAsciiDigit, Bool.or_eq_true, Bool.and_eq_true, decide_eq_true_eq,
      beq_iff_eq] at h
    rcases h with h | rfl
    · omega
    · revert hb
      decide
  · have := key c.toNat (by simp only [List.mem_cons, List.not_mem_nil, or_false]; omega)
    rw [this] at h
    cases h

theorem not_isBlank_of_isAsciiLetter {c : Char} (h : isAsciiLetter c = true) :
    isBlank c = false := by
  apply not_isBlank_of_isWord
  have : c.toNat < 0x80 := by
    simp only [isAsciiLetter, Bool.or_eq_true, Bool.and_eq_true, decide_eq_true_eq] at h
    omega
  simp [isWord, this, h]

theorem not_isBlank_of_isTagNameChar {c : Char} (h : isTagNameChar c = true) :
    isBlank c = false := by
  simp only [isTagNameChar, Bool.or_eq_true, beq_iff_eq] at h
  rcases h with ((h | rfl) | rfl) | rfl
  · exact not_isBlank_of_isWord h
  all_goals rfl

theorem not_isBlank_of_isAttributeNameChar {c : Char} (h : isAttributeNameChar c = true) :
    isBlank c = false := by
  simp only [isAttributeNameChar, Bool.not_eq_true', Bool.or_eq_false_iff] at h
  exact h.1.1.1.1.1.1.1

theorem not_isBlank_of_isUnquotedChar {c : Char} (h : isUnquotedChar c = true) :
    isBlank c = false := by
  simp only [isUnquotedChar, Bool.not_eq_true', Bool.or_eq_false_iff] at h
  exact h.1.1.1.1.1.1

theorem take_length_takeWhile {p : Char → Bool} (text : List Char) :
    text.take (text.takeWhile p).length = text.takeWhile p :=
  (List.prefix_iff_eq_take.mp (List.takeWhile_prefix p)).symm

theorem drop_length_takeWhile {p : Char → Bool} (text : List Char) :
    text.drop (text.takeWhile p).length = text.dropWhile p := by
  apply @List.append_cancel_left _ (text.takeWhile p)
  rw [List.takeWhile_append_dropWhile, ← take_length_takeWhile, List.length_take,
    Nat.min_eq_left (List.takeWhile_prefix p).length_le, List.take_append_drop]

theorem tagNameLength_le (text : List Char) : tagNameLength text ≤ text.length := by
  unfold tagNameLength
  split
  · simp
  · next c rest =>
    have := (List.takeWhile_prefix (l := rest) isTagNameChar).length_le
    split <;> simp only [List.length_cons] <;> omega

theorem length_take_tagName (text : List Char) :
    (text.take (tagNameLength text)).length = tagNameLength text :=
  List.length_take_of_le (tagNameLength_le text)

theorem inline_tagName {text : List Char} (h : tagNameLength text ≠ 0) :
    Inline (text.take (tagNameLength text)) := by
  unfold tagNameLength at h ⊢
  split at h
  · exact absurd rfl h
  · next c rest =>
    split at h
    · next hc =>
      simp only [hc, if_true, Nat.add_comm 1, List.take_succ_cons, take_length_takeWhile]
      apply inline_of_all (by simp)
      intro d hd
      rcases List.mem_cons.mp hd with rfl | hd
      · exact not_isBlank_of_isAsciiLetter hc
      · exact not_isBlank_of_isTagNameChar (List.mem_takeWhile_imp hd)
    · exact absurd rfl h

theorem attributeNameLength_le (text : List Char) : attributeNameLength text ≤ text.length :=
  (List.takeWhile_prefix _).length_le

theorem inline_attributeName {text : List Char} (h : attributeNameLength text ≠ 0) :
    Inline (text.take (attributeNameLength text)) := by
  unfold attributeNameLength at h ⊢
  rw [take_length_takeWhile]
  apply inline_of_all
  · intro hn
    simp [hn] at h
  · intro c hc
    exact not_isBlank_of_isAttributeNameChar (List.mem_takeWhile_imp hc)

theorem unquotedTail?_spec {text : List Char} {n : Nat} (h : unquotedTail? text = some n) :
    n ≤ text.length ∧ ∀ c ∈ text.take n, isBlank c = false := by
  fun_induction unquotedTail? text generalizing n with
  | case1 => cases h; simp
  | case2 => cases h; simp
  | case3 c rest hend hc ih =>
    obtain ⟨m, hm, rfl⟩ := Option.map_eq_some_iff.mp h
    obtain ⟨hle, hall⟩ := ih hm
    refine ⟨by simpa using hle, ?_⟩
    intro d hd
    rcases List.mem_cons.mp (by simpa using hd) with rfl | hd
    · exact not_isBlank_of_isUnquotedChar hc
    · exact hall d hd
  | case4 => cases h

theorem unquotedLength?_spec {text : List Char} {n : Nat} (h : unquotedLength? text = some n) :
    n ≤ text.length ∧ Inline (text.take n) := by
  unfold unquotedLength? at h
  split at h
  · cases h
  · next c rest =>
    split at h
    · next hc =>
      obtain ⟨m, hm, rfl⟩ := Option.map_eq_some_iff.mp h
      obtain ⟨hle, hall⟩ := unquotedTail?_spec hm
      refine ⟨by simpa using hle, inline_of_all (by simp) ?_⟩
      intro d hd
      rcases List.mem_cons.mp (by simpa using hd) with rfl | hd
      · exact not_isBlank_of_isUnquotedChar hc
      · exact hall d hd
    · cases h

theorem inline_keyword {text : List Char} (h : text.takeWhile isAsciiLetter ≠ []) :
    Inline (text.takeWhile isAsciiLetter) :=
  inline_of_all h fun _ hc => not_isBlank_of_isAsciiLetter (List.mem_takeWhile_imp hc)

/-! ## Stretches and comments -/

theorem contentTail_le (text : List Char) : contentTail text ≤ text.length := by
  fun_induction contentTail text <;> simp_all

theorem contentTail_spec (text : List Char) :
    '\n' ∉ text.take (contentTail text) ∧
      ∀ c, (text.take (contentTail text)).getLast? = some c → isBlank c = false := by
  fun_induction contentTail text with
  | case1 => simp
  | case2 => simp
  | case3 => simp
  | case4 c rest hn h0 hb ih =>
    simp only [Bool.not_eq_true, beq_eq_false_iff_ne] at hn
    simp [Ne.symm hn, hb]
  | case5 c rest hn n hs ih =>
    simp only [Bool.not_eq_true, beq_eq_false_iff_ne] at hn
    rw [hs] at ih
    refine ⟨by simp [Ne.symm hn, ih.1], ?_⟩
    intro d hd
    apply ih.2 d
    have hne : rest.take (n + 1) ≠ [] := by
      have := contentTail_le rest
      intro he
      have := congrArg List.length he
      simp only [List.length_take, List.length_nil] at this
      omega
    rw [List.take_succ_cons] at hd
    rwa [List.getLast?_cons_of_ne_nil hne] at hd

/-- Only blanks follow on the line. -/
theorem isBlank_after_content (text : List Char) :
    ∀ c ∈ (text.drop (contentTail text)).takeWhile (· != '\n'), isBlank c = true := by
  fun_induction contentTail text with
  | case1 => simp
  | case2 c rest hn => simp_all
  | case3 c rest hn h0 hb ih =>
    rw [h0] at ih
    intro d hd
    rw [List.drop_zero, List.takeWhile_cons] at hd
    split at hd
    · rcases List.mem_cons.mp hd with rfl | hd
      · exact hb
      · exact ih d hd
    · cases hd
  | case4 c rest hn h0 hb ih =>
    rw [h0] at ih
    simpa using ih
  | case5 c rest hn n hs ih =>
    rw [hs] at ih
    simpa using ih

/-- Blanks up to the first line end, and no line end in the blanks: nothing but blanks. -/
theorem isBlank_of_no_newline {text : List Char}
    (h : ∀ c ∈ text.takeWhile (· != '\n'), isBlank c = true)
    (hn : '\n' ∉ text.takeWhile isBlank) : ∀ c ∈ text, isBlank c = true := by
  induction text with
  | nil => simp
  | cons c rest ih =>
    by_cases hc : c = '\n'
    · rw [hc, List.takeWhile_cons_of_pos isBlank_newline] at hn
      exact absurd List.mem_cons_self hn
    · have hne : (c != '\n') = true := bne_iff_ne.mpr hc
      rw [List.takeWhile_cons, if_pos hne] at h
      obtain ⟨hb, hrest⟩ := List.forall_mem_cons.mp h
      rw [List.takeWhile_cons_of_pos hb] at hn
      exact List.forall_mem_cons.mpr ⟨hb, ih hrest fun hm => hn (List.mem_cons_of_mem _ hm)⟩

theorem inline_content {c : Char} {rest : List Char} (h : isBlank c = false) :
    Inline (c :: rest.take (contentTail rest)) := by
  obtain ⟨hn, hl⟩ := contentTail_spec rest
  refine ⟨⟨⟨c, rfl, h⟩, ?_⟩, ?_⟩
  · cases he : rest.take (contentTail rest) with
    | nil => exact ⟨c, rfl, h⟩
    | cons d ds =>
      refine ⟨(d :: ds).getLast (by simp), ?_, ?_⟩
      · rw [List.getLast?_cons_of_ne_nil (by simp), List.getLast?_eq_some_getLast]
      · exact hl _ (by rw [he, List.getLast?_eq_some_getLast])
  · simp [hn, Ne.symm (newline_ne_of_not_isBlank h)]

theorem commentEnd?_spec {text : List Char} {n : Nat} (h : commentEnd? text = some n) :
    n + 3 ≤ text.length ∧ (text.drop n).take 3 = ['-', '-', '>'] := by
  fun_induction commentEnd? text generalizing n with
  | case1 => cases h
  | case2 => cases h; simp
  | case3 c rest hno ih =>
    obtain ⟨m, hm, rfl⟩ := Option.map_eq_some_iff.mp h
    obtain ⟨hle, heq⟩ := ih hm
    exact ⟨by simp only [List.length_cons]; omega, by simpa using heq⟩

theorem solid_comment {text : List Char} {n : Nat}
    (hs : ['<', '!', '-', '-'].isPrefixOf text = true) (h : commentEnd? (text.drop 4) = some n) :
    n + 7 ≤ text.length ∧ Solid (text.take (n + 7)) := by
  obtain ⟨rest, rfl⟩ := List.isPrefixOf_iff_prefix.mp hs
  obtain ⟨hle, heq⟩ := commentEnd?_spec h
  simp only [List.cons_append, List.nil_append, List.drop_succ_cons, List.drop_zero] at hle heq ⊢
  refine ⟨by simp only [List.length_cons]; omega, ?_⟩
  have hsplit : rest.take (n + 3) = rest.take n ++ ['-', '-', '>'] := by
    rw [List.take_add, heq]
  have htake : ('<' :: '!' :: '-' :: '-' :: rest).take (n + 7) =
      '<' :: ('!' :: '-' :: '-' :: (rest.take n ++ ['-', '-', '>'])) := by
    simp [← hsplit]
  rw [htake]
  exact solid_of_ends rfl (d := '>') rfl (by simp [List.getLast?_cons, List.getLast?_append])

/-! ## Tokens of expressions -/

theorem stringTail?_spec {quote : Char} {text : List Char} {n : Nat}
    (h : stringTail? quote text = some n) :
    n ≤ text.length ∧ (text.take n).getLast? = some quote := by
  have snoc : ∀ (a b : List Char) (c : Char), b.getLast? = some c → (a ++ b).getLast? = some c := by
    intro a b c hb
    rw [List.getLast?_append, hb]
    rfl
  fun_induction stringTail? quote text generalizing n with
  | case1 => cases h
  | case2 => cases h
  | case3 d rest ih =>
    obtain ⟨m, hm, rfl⟩ := Option.map_eq_some_iff.mp h
    obtain ⟨hle, hl⟩ := ih hm
    exact ⟨by simpa using hle, snoc ['\\', d] _ _ hl⟩
  | case4 c rest h1 h2 hq => cases h; simpa using hq
  | case5 c rest h1 h2 hq ih =>
    obtain ⟨m, hm, rfl⟩ := Option.map_eq_some_iff.mp h
    obtain ⟨hle, hl⟩ := ih hm
    exact ⟨by simpa using hle, snoc [c] _ _ hl⟩

theorem operators_spec : ∀ op ∈ operators, op.length ≠ 0 ∧ Word op := by
  decide

/-- **A token of an expression** is punctuation within a line, or a name, number, string or lone
character. -/
theorem expressionLexeme_spec {c : Char} (rest : List Char) (hc : isBlank c = false) :
    (expressionLexeme c rest).2 ≤ rest.length ∧
      Solid (c :: rest.take (expressionLexeme c rest).2) ∧
      ((expressionLexeme c rest).1 = .expression ∨
        (expressionLexeme c rest).1 = .punctuator ∧
          '\n' ∉ c :: rest.take (expressionLexeme c rest).2) := by
  have word : ∀ p : Char → Bool, (∀ d, p d = true → isBlank d = false) →
      (rest.takeWhile p).length ≤ rest.length ∧
        Solid (c :: rest.take (rest.takeWhile p).length) := by
    intro p hp
    refine ⟨(List.takeWhile_prefix p).length_le, ?_⟩
    rw [take_length_takeWhile]
    refine (inline_of_all (by simp) ?_).1
    intro d hd
    rcases List.mem_cons.mp hd with rfl | hd
    · exact hc
    · exact hp d (List.mem_takeWhile_imp hd)
  unfold expressionLexeme
  split
  · next n hn =>
    have hq : isQuote c = true ∧ stringTail? c rest = some n := by
      split at hn
      · next h => exact ⟨h, hn⟩
      · cases hn
    obtain ⟨hle, hl⟩ := stringTail?_spec hq.2
    refine ⟨hle, solid_of_ends hc (d := c) hc ?_, .inl rfl⟩
    rw [List.getLast?_cons, hl]
    rfl
  · split
    · obtain ⟨hle, hs⟩ := word (fun d => isWord d || d == '.') (by
        intro d hd
        rcases Bool.or_eq_true_iff.mp hd with hd | hd
        · exact not_isBlank_of_isWord hd
        · rw [beq_iff_eq.mp hd]; rfl)
      exact ⟨hle, hs, .inl rfl⟩
    · split
      · obtain ⟨hle, hs⟩ := word (fun d => isWord d || d == '$') (by
          intro d hd
          rcases Bool.or_eq_true_iff.mp hd with hd | hd
          · exact not_isBlank_of_isWord hd
          · rw [beq_iff_eq.mp hd]; rfl)
        exact ⟨hle, hs, .inl rfl⟩
      · split
        · next op hop =>
          obtain ⟨hlen, hblank⟩ := operators_spec op (List.mem_of_find?_eq_some hop)
          have hpre : op <+: c :: rest := by
            have := List.find?_some hop
            exact List.isPrefixOf_iff_prefix.mp this
          have htake : c :: rest.take (op.length - 1) = op := by
            have := List.prefix_iff_eq_take.mp hpre
            obtain ⟨m, hm⟩ : ∃ m, op.length = m + 1 := ⟨op.length - 1, by omega⟩
            rw [hm, List.take_succ_cons] at this
            rw [hm, Nat.add_sub_cancel, ← this]
          have hi : Inline op := inline_of_all (by rintro rfl; exact hlen rfl) hblank
          have := hpre.length_le
          rw [htake]
          exact ⟨by simp only [List.length_cons] at this; omega, hi.1, .inr ⟨rfl, hi.2⟩⟩
        · have hi : Inline [c] := inline_of_all (by simp) (by simpa [Word] using hc)
          refine ⟨Nat.zero_le _, hi.1, ?_⟩
          cases hp : punctuation.contains c with
          | true => exact .inr ⟨rfl, hi.2⟩
          | false => exact .inl rfl

/-! ## The end of a raw element -/

theorem rawEnd?_spec {name text : List Char} {n : Nat} (h : rawEnd? name text = some n) :
    n ≤ text.length ∧ closesRaw name (text.drop n) = true := by
  fun_induction rawEnd? name text generalizing n with
  | case1 => cases h
  | case2 c rest hc => cases h; exact ⟨Nat.zero_le _, hc⟩
  | case3 c rest hc ih =>
    obtain ⟨m, hm, rfl⟩ := Option.map_eq_some_iff.mp h
    obtain ⟨hle, hcl⟩ := ih hm
    exact ⟨by simpa using hle, by simpa using hcl⟩

theorem prefix_of_closesRaw {name text : List Char} (h : closesRaw name text = true) :
    ['<', '/'].isPrefixOf text = true := by
  unfold closesRaw at h
  split at h
  · rfl
  · cases h

end MarkupIndent.Markup
