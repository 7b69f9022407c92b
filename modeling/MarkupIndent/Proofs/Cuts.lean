import Mathlib.Data.List.Find
import MarkupIndent.Proofs.Lexemes
import MarkupIndent.Proofs.Mending

/-!
# Lexemes of mended texts

A text and what becomes of it when margins are mended have the same lexemes, one after the other.
A lexeme may be longer or shorter than its partner, since blanks within it may be margins; but the
two end at places of each other.

* `Cut`: places of each other in a text and its mended form.
* `cut_inline`, `cut_blanks`, `cut_search`: how far characters of a line, blanks, and a search for
  a sign reach.
* `cut_string`, `cut_expressionLexeme`: the tokens of expressions.
-/

namespace MarkupIndent.Margin

open Markup Text

/-- The first `m` characters of a text become the first `n` of its mended form, and the others the
others. -/
structure Cut (es : List Edit) (o : Int) (a b : List Char) (m n : Nat) : Prop where
  le : m ≤ a.length
  le' : n ≤ b.length
  before : Mended es o (a.take m) (b.take n)
  after : Mended es (o + m) (a.drop m) (b.drop n)

variable {es : List Edit} {o : Int} {a b : List Char}

namespace Cut

variable {m n : Nat}

theorem zero (h : Mended es o a b) : Cut es o a b 0 0 :=
  ⟨Nat.zero_le _, Nat.zero_le _, .nil, by simpa using h⟩

theorem full (h : Mended es o a b) : Cut es o a b a.length b.length := by
  refine ⟨Nat.le_refl _, Nat.le_refl _, by simpa using h, ?_⟩
  rw [List.drop_length, List.drop_length]
  exact .nil

theorem char {c : Char} (hc : c ≠ '\n') (h : Cut es (o + 1) a b m n) :
    Cut es o (c :: a) (c :: b) (m + 1) (n + 1) := by
  obtain ⟨h1, h2, h3, h4⟩ := h
  refine ⟨by simpa using h1, by simpa using h2, by simpa using .char hc h3, ?_⟩
  rw [List.drop_succ_cons, List.drop_succ_cons]
  convert h4 using 1
  omega

theorem line (hn : ∀ e ∈ es, e.start ≠ o + 1) (h : Cut es (o + 1) a b m n) :
    Cut es o ('\n' :: a) ('\n' :: b) (m + 1) (n + 1) := by
  obtain ⟨h1, h2, h3, h4⟩ := h
  refine ⟨by simpa using h1, by simpa using h2, by simpa using .line hn h3, ?_⟩
  rw [List.drop_succ_cons, List.drop_succ_cons]
  convert h4 using 1
  omega

theorem mend {e : Edit} {w : List Char} (he : e ∈ es) (h1 : e.start = o + 1)
    (h2 : e.stop = o + 1 + w.length) (hw : Margin w) (ht : Margin e.text)
    (h : Cut es (o + 1 + w.length) a b m n) :
    Cut es o ('\n' :: (w ++ a)) ('\n' :: (e.text ++ b)) (w.length + m + 1)
      (e.text.length + n + 1) := by
  obtain ⟨h3, h4, h5, h6⟩ := h
  refine ⟨?_, ?_, ?_, ?_⟩
  · simp only [List.length_cons, List.length_append]
    omega
  · simp only [List.length_cons, List.length_append]
    omega
  · rw [List.take_succ_cons, List.take_succ_cons, List.take_length_add_append,
      List.take_length_add_append]
    exact .mend he h1 h2 hw ht h5
  · rw [List.drop_succ_cons, List.drop_succ_cons, List.drop_length_add_append,
      List.drop_length_add_append]
    convert h6 using 1
    omega

theorem trans {i j : Nat} (h : Cut es o a b m n) (h' : Cut es (o + m) (a.drop m) (b.drop n) i j) :
    Cut es o a b (m + i) (n + j) := by
  obtain ⟨h1, h2, h3, h4⟩ := h
  obtain ⟨h5, h6, h7, h8⟩ := h'
  rw [List.length_drop] at h5 h6
  refine ⟨by omega, by omega, ?_, ?_⟩
  · rw [List.take_add, List.take_add]
    refine h3.append ?_
    rwa [List.length_take, Nat.min_eq_left h1]
  · rw [List.drop_drop, List.drop_drop] at h8
    convert h8 using 1
    omega

/-- What follows both texts does not matter. -/
theorem append {x y : List Char} (h : Cut es o a b m n) (hxy : Mended es (o + a.length) x y) :
    Cut es o (a ++ x) (b ++ y) m n := by
  obtain ⟨h1, h2, h3, h4⟩ := h
  refine ⟨?_, ?_, ?_, ?_⟩
  · rw [List.length_append]
    omega
  · rw [List.length_append]
    omega
  · rwa [List.take_append_of_le_length h1, List.take_append_of_le_length h2]
  · rw [List.drop_append_of_le_length h1, List.drop_append_of_le_length h2]
    refine h4.append ?_
    convert hxy using 1
    rw [List.length_drop]
    omega

end Cut

/-! ## Lines and blanks -/

theorem Mended.nil_iff (h : Mended es o a b) : a = [] ↔ b = [] := by
  cases h <;> simp

theorem Mended.head_iff (h : Mended es o a b) : a.head? = b.head? := by
  cases h <;> rfl

theorem Mended.exists_cons {c : Char} (h : Mended es o (c :: a) b) : ∃ b', b = c :: b' := by
  cases h with
  | char | line | mend => exact ⟨_, rfl⟩

theorem Mended.eq_of_not_mem (h : Mended es o a b) (hn : '\n' ∉ a) : a = b := by
  induction h with
  | nil => rfl
  | char _ _ ih => rw [ih fun hm => hn (List.mem_cons_of_mem _ hm)]
  | line | mend => exact absurd List.mem_cons_self hn

/-- Within a line nothing changes. -/
theorem cut_inline (h : Mended es o a b) {n : Nat} (hle : n ≤ a.length) (hn : '\n' ∉ a.take n) :
    Cut es o a b n n ∧ b.take n = a.take n := by
  induction n generalizing o a b with
  | zero => exact ⟨.zero h, rfl⟩
  | succ n ih =>
    cases h with
    | nil => simp at hle
    | char hc h =>
      obtain ⟨h1, h2⟩ := ih h (by simpa using hle) fun hm => hn (by simp [hm])
      exact ⟨.char hc h1, by simp [h2]⟩
    | line | mend => simp at hn

/-- The blanks at the beginning become the blanks at the beginning. -/
theorem cut_blanks (h : Mended es o a b) :
    Cut es o a b (a.takeWhile isBlank).length (b.takeWhile isBlank).length := by
  have margin : ∀ {w : List Char} (x : List Char), Margin w →
      ((w ++ x).takeWhile isBlank).length = w.length + (x.takeWhile isBlank).length := by
    intro w x hw
    rw [List.takeWhile_append_of_pos fun c hc => (hw c hc).1, List.length_append]
  induction h with
  | nil => exact .zero .nil
  | @char o c a b hc h ih =>
    by_cases hb : isBlank c = true
    · simpa [hb] using ih.char hc
    · simpa [hb] using Cut.zero (.char hc h)
  | line hn _ ih =>
    rw [List.takeWhile_cons_of_pos isBlank_newline, List.takeWhile_cons_of_pos isBlank_newline]
    exact ih.line hn
  | mend he h1 h2 hw ht _ ih =>
    rw [List.takeWhile_cons_of_pos isBlank_newline, List.takeWhile_cons_of_pos isBlank_newline,
      List.length_cons, List.length_cons, margin _ hw, margin _ ht]
    exact ih.mend he h1 h2 hw ht

/-! ## Searching -/

/-- The place of the first rest of a text that meets a condition. -/
def search? (found : List Char → Bool) : List Char → Option Nat
  | [] => none
  | c :: rest => if found (c :: rest) then some 0 else (search? found rest).map (· + 1)

/-- A condition that is met at no blank, whatever the margins of later lines. -/
structure Steady (found : List Char → Bool) : Prop where
  blank : ∀ (c : Char) (rest : List Char), isBlank c = true → found (c :: rest) = false
  agrees : ∀ {a b : List Char}, Reindented a b → found a = found b

theorem search?_margin {found : List Char → Bool} (hf : Steady found) {w : List Char}
    (hw : Margin w) (a : List Char) :
    search? found (w ++ a) = (search? found a).map (w.length + ·) := by
  induction w with
  | nil => simp
  | cons c w ih =>
    rw [List.cons_append, search?, hf.blank c _ (hw c List.mem_cons_self).1, ih hw.tail]
    cases search? found a with
    | none => rfl
    | some n =>
      simp only [Bool.false_eq_true, if_false, Option.map_some, List.length_cons]
      congr 1
      omega

/-- **A search finds the same place**, or nothing in both. -/
theorem cut_search {found : List Char → Bool} (hf : Steady found) (h : Mended es o a b) :
    (search? found a = none ∧ search? found b = none) ∨
      ∃ m n, search? found a = some m ∧ search? found b = some n ∧ Cut es o a b m n := by
  induction h with
  | nil => exact .inl ⟨rfl, rfl⟩
  | @char o c a b hc h ih =>
    have hsame := hf.agrees (Mended.char (o := o) hc h).reindented
    rw [search?, search?, hsame]
    split
    · exact .inr ⟨0, 0, rfl, rfl, .zero (.char hc h)⟩
    · rcases ih with ⟨h1, h2⟩ | ⟨m, n, h1, h2, hcut⟩
      · exact .inl ⟨by rw [h1]; rfl, by rw [h2]; rfl⟩
      · exact .inr ⟨m + 1, n + 1, by rw [h1]; rfl, by rw [h2]; rfl, hcut.char hc⟩
  | line hn _ ih =>
    rw [search?, search?, hf.blank _ _ isBlank_newline, hf.blank _ _ isBlank_newline]
    rcases ih with ⟨h1, h2⟩ | ⟨m, n, h1, h2, hcut⟩
    · exact .inl ⟨by rw [h1]; rfl, by rw [h2]; rfl⟩
    · exact .inr ⟨m + 1, n + 1, by rw [h1]; rfl, by rw [h2]; rfl, hcut.line hn⟩
  | mend he hstart hstop hw ht _ ih =>
    rw [search?, search?, hf.blank _ _ isBlank_newline, hf.blank _ _ isBlank_newline,
      search?_margin hf hw, search?_margin hf ht]
    rcases ih with ⟨h1, h2⟩ | ⟨m, n, h1, h2, hcut⟩
    · exact .inl ⟨by rw [h1]; rfl, by rw [h2]; rfl⟩
    · exact .inr ⟨_, _, by rw [h1]; rfl, by rw [h2]; rfl, hcut.mend he hstart hstop hw ht⟩

/-- A search that ends with the text if nothing is found. -/
theorem cut_search_getD {found : List Char → Bool} (hf : Steady found) (h : Mended es o a b) :
    Cut es o a b ((search? found a).getD a.length) ((search? found b).getD b.length) := by
  rcases cut_search hf h with ⟨h1, h2⟩ | ⟨m, n, h1, h2, hcut⟩
  · rw [h1, h2]
    exact .full h
  · rw [h1, h2]
    exact hcut

end MarkupIndent.Margin

namespace MarkupIndent.Markup

open Margin Text

/-! ## Names and values -/

section Lexemes

variable {a b : List Char}

theorem head?_reindented (h : Reindented a b) : a.head? = b.head? := by
  cases h <;> rfl

theorem takeWhile_reindented {p : Char → Bool} (hp : p '\n' = false) (h : Reindented a b) :
    a.takeWhile p = b.takeWhile p := by
  induction h with
  | nil => rfl
  | @char c a b _ _ ih =>
    by_cases hc : p c = true
    · rw [List.takeWhile_cons_of_pos hc, List.takeWhile_cons_of_pos hc, ih]
    · rw [List.takeWhile_cons_of_neg hc, List.takeWhile_cons_of_neg hc]
  | line =>
    rw [List.takeWhile_cons_of_neg (by simp [hp]), List.takeWhile_cons_of_neg (by simp [hp])]

theorem trimLeft_reindented (h : Reindented a b) : Reindented (trimLeft a) (trimLeft b) := by
  have margin : ∀ {w : List Char} (x : List Char), Margin w → trimLeft (w ++ x) = trimLeft x := by
    intro w x hw
    exact List.dropWhile_append_of_pos fun c hc => (hw c hc).1
  induction h with
  | nil => exact .nil
  | @char c a b hc h ih =>
    unfold trimLeft at ih ⊢
    by_cases hb : isBlank c = true
    · rwa [List.dropWhile_cons_of_pos hb, List.dropWhile_cons_of_pos hb]
    · rw [List.dropWhile_cons_of_neg hb, List.dropWhile_cons_of_neg hb]
      exact .char hc h
  | @line v w a b hv hw h ih =>
    have hl : ∀ x : List Char, trimLeft ('\n' :: x) = trimLeft x :=
      fun x => List.dropWhile_cons_of_pos isBlank_newline
    rwa [hl, hl, margin _ hv, margin _ hw]

theorem tagNameLength_reindented (h : Reindented a b) : tagNameLength a = tagNameLength b := by
  cases h with
  | nil => rfl
  | char _ h => simp only [tagNameLength, takeWhile_reindented (p := isTagNameChar) (by decide) h]
  | line => rfl

theorem attributeNameLength_reindented (h : Reindented a b) :
    attributeNameLength a = attributeNameLength b := by
  unfold attributeNameLength
  rw [takeWhile_reindented (by decide) h]

theorem unquotedTail?_reindented (h : Reindented a b) : unquotedTail? a = unquotedTail? b := by
  induction h with
  | nil => rfl
  | char _ h ih => simp only [unquotedTail?, ih, head?_reindented h]
  | line => simp only [unquotedTail?, isBlank_newline, Bool.true_or, if_true]

theorem unquotedLength?_reindented (h : Reindented a b) :
    unquotedLength? a = unquotedLength? b := by
  cases h with
  | nil => rfl
  | char _ h => simp only [unquotedLength?, unquotedTail?_reindented h]
  | line => rfl

/-! ## Stretches and ends -/

theorem contentTail_reindented (h : Reindented a b) : contentTail a = contentTail b := by
  induction h with
  | nil => rfl
  | char _ _ ih => simp only [contentTail, ih]
  | line => rfl

theorem opensMarkup_cons (c : Char) (rest : List Char) : opensMarkup (c :: rest) =
    (c == '/' || (c == '!' && ['-', '-'].isPrefixOf rest) || isAsciiLetter c) := by
  unfold opensMarkup
  split
  · next h =>
    obtain ⟨rfl, -⟩ := List.cons.inj h
    rfl
  · next h =>
    obtain ⟨rfl, rfl⟩ := List.cons.inj h
    simp
  · next hslash hdash h =>
    obtain ⟨rfl, rfl⟩ := List.cons.inj h
    have h1 : (c == '/') = false := beq_eq_false_iff_ne.mpr hslash
    have h2 : (c == '!' && ['-', '-'].isPrefixOf rest) = false := by
      rw [Bool.eq_false_iff]
      intro hc
      rw [Bool.and_eq_true, beq_iff_eq, List.isPrefixOf_iff_prefix] at hc
      obtain ⟨hc, tail, ht⟩ := hc
      exact hdash tail hc ht.symm
    rw [h1, h2, Bool.false_or, Bool.false_or]
  · next h => cases h

theorem opensMarkup_reindented (h : Reindented a b) : opensMarkup a = opensMarkup b := by
  cases h with
  | nil => rfl
  | char _ h => rw [opensMarkup_cons, opensMarkup_cons, h.isPrefixOf (by decide)]
  | line => rw [opensMarkup_cons, opensMarkup_cons]; rfl

/-- The rest of a text begins with a sign of markup or of the template language. -/
def endsText : List Char → Bool
  | [] => false
  | c :: rest => c == '{' || (c == '<' && opensMarkup rest)

theorem steady_endsText : Steady endsText where
  blank c rest hc := by
    simp only [endsText, Bool.or_eq_false_iff, Bool.and_eq_false_iff, beq_eq_false_iff_ne]
    refine ⟨?_, .inl ?_⟩ <;> rintro rfl <;> cases hc
  agrees h := by
    cases h with
    | nil => rfl
    | char _ h => simp only [endsText, opensMarkup_reindented h]
    | line => rfl

theorem textTail_eq (text : List Char) :
    textTail text = (search? endsText text).getD text.length := by
  induction text with
  | nil => rfl
  | cons c rest ih =>
    rw [textTail, search?, endsText, ih]
    split
    · rfl
    · cases search? endsText rest <;> rfl

/-- The rest of a text begins with the quote of a value or with a mustache. -/
def endsLiteral (quote : Char) : List Char → Bool
  | [] => false
  | c :: _ => c == quote || c == '{'

theorem steady_endsLiteral {quote : Char} (hq : isBlank quote = false) :
    Steady (endsLiteral quote) where
  blank c rest hc := by
    simp only [endsLiteral, Bool.or_eq_false_iff, beq_eq_false_iff_ne]
    refine ⟨?_, ?_⟩ <;> rintro rfl
    · rw [hc] at hq
      cases hq
    · cases hc
  agrees h := by
    cases h with
    | nil | char | line => rfl

theorem literal_eq (quote : Char) (text : List Char) :
    (text.takeWhile fun d => d != quote && d != '{').length =
      (search? (endsLiteral quote) text).getD text.length := by
  induction text with
  | nil => rfl
  | cons c rest ih =>
    have hp : (c != quote && c != '{') = !(c == quote || c == '{') := (Bool.not_or _ _).symm
    rw [search?, endsLiteral]
    by_cases hc : (c == quote || c == '{') = true
    · rw [if_pos hc, List.takeWhile_cons_of_neg (by simp only [hp, hc]; decide)]
      rfl
    · rw [if_neg hc, List.takeWhile_cons_of_pos (by simp only [hp, hc]; decide), List.length_cons,
        ih]
      cases search? (endsLiteral quote) rest <;> rfl

theorem steady_isPrefixOf {word : List Char} (hne : word ≠ []) (hw : Word word) :
    Steady word.isPrefixOf where
  blank c rest hc := by
    cases word with
    | nil => exact absurd rfl hne
    | cons d word =>
      have : (d == c) = false := by
        rw [beq_eq_false_iff_ne]
        rintro rfl
        rw [hw d List.mem_cons_self] at hc
        cases hc
      simp [List.isPrefixOf_cons_cons, this]
  agrees h := h.isPrefixOf hw

theorem commentEnd?_eq (text : List Char) :
    commentEnd? text = search? ['-', '-', '>'].isPrefixOf text := by
  fun_induction commentEnd? text with
  | case1 => rfl
  | case2 => rfl
  | case3 c rest hno ih =>
    have : ['-', '-', '>'].isPrefixOf (c :: rest) = false := by
      rw [Bool.eq_false_iff]
      intro h
      obtain ⟨tail, ht⟩ := List.isPrefixOf_iff_prefix.mp h
      obtain ⟨rfl, rfl⟩ := List.cons.inj ht
      exact hno tail rfl rfl
    rw [search?, this, ih]
    rfl

theorem rawEnd?_eq (name text : List Char) : rawEnd? name text = search? (closesRaw name) text := by
  induction text with
  | nil => rfl
  | cons c rest ih => rw [rawEnd?, search?, ih]

theorem dropWord?_reindented {name : List Char} (hn : ∀ w ∈ name, sameLetter w '\n' = false)
    (h : Reindented a b) : (dropWord? name a = none ∧ dropWord? name b = none) ∨
      ∃ a' b', dropWord? name a = some a' ∧ dropWord? name b = some b' ∧ Reindented a' b' := by
  induction name generalizing a b with
  | nil => exact .inr ⟨a, b, by cases a <;> rfl, by cases b <;> rfl, h⟩
  | cons w name ih =>
    cases h with
    | nil => exact .inl ⟨rfl, rfl⟩
    | char _ h =>
      simp only [dropWord?]
      split
      · exact ih (fun v hv => hn v (List.mem_cons_of_mem w hv)) h
      · exact .inl ⟨rfl, rfl⟩
    | line => simp [dropWord?, hn w List.mem_cons_self]

/-- The closing tag of a raw element stands in both texts or in neither. -/
theorem closesRaw_reindented {name : List Char} (hn : ∀ w ∈ name, sameLetter w '\n' = false)
    (h : Reindented a b) : closesRaw name a = closesRaw name b := by
  have hsign := h.isPrefixOf (show Word ['<', '/'] by decide)
  by_cases ha : ['<', '/'].isPrefixOf a = true
  · obtain ⟨x, rfl⟩ := List.isPrefixOf_iff_prefix.mp ha
    obtain ⟨y, rfl⟩ := List.isPrefixOf_iff_prefix.mp (hsign ▸ ha)
    have hxy : Reindented x y := by
      cases h with
      | char _ h => cases h with
        | char _ h => exact h
    simp only [List.cons_append, List.nil_append, closesRaw]
    rcases dropWord?_reindented hn (trimLeft_reindented hxy) with ⟨h1, h2⟩ | ⟨x', y', h1, h2, h'⟩
    · rw [h1, h2]
    · simp only [h1, h2, head?_reindented (trimLeft_reindented h')]
  · have none_of : ∀ x : List Char, ¬ ['<', '/'].isPrefixOf x = true →
        closesRaw name x = false := by
      intro x hx
      rw [Bool.eq_false_iff]
      exact mt prefix_of_closesRaw hx
    rw [none_of a ha, none_of b (hsign ▸ ha)]

theorem steady_closesRaw (kind : RawKind) : Steady (closesRaw kind.name) where
  blank c rest hc := by
    rw [Bool.eq_false_iff]
    intro h
    have := prefix_of_closesRaw h
    rw [List.isPrefixOf_cons_cons, Bool.and_eq_true, beq_iff_eq] at this
    obtain ⟨rfl, -⟩ := this
    cases hc
  agrees := closesRaw_reindented (by
    cases kind <;> simp [RawKind.name, sameLetter, lowerChar])

end Lexemes

/-! ## Strings and expressions -/

/-- The end of a string after its opening quote, where the character before may be a backslash that
takes the next character with it. -/
def stringEnd? (quote : Char) : (escaped : Bool) → List Char → Option Nat
  | _, [] => none
  | true, _ :: rest => (stringEnd? quote false rest).map (· + 1)
  | false, c :: rest =>
    if c = '\\' then (stringEnd? quote true rest).map (· + 1)
    else if c = quote then some 1
    else (stringEnd? quote false rest).map (· + 1)

theorem stringTail?_eq (quote : Char) (text : List Char) :
    stringTail? quote text = stringEnd? quote false text := by
  have plain : ∀ {c : Char} {rest : List Char}, (c = '\\' → ¬ rest = []) →
      (∀ d tail, c = '\\' → ¬ rest = d :: tail) → c ≠ '\\' := by
    intro c rest h1 h2 hc
    cases rest with
    | nil => exact h1 hc rfl
    | cons d tail => exact h2 d tail hc rfl
  fun_induction stringTail? quote text with
  | case1 => rfl
  | case2 => rfl
  | case3 d rest ih =>
    simp only [stringEnd?, ih, Option.map_map, if_true]
    rfl
  | case4 c rest h1 h2 hq =>
    have hc : c ≠ '\\' := plain (fun hc hr => h1 hc hr) fun d tail hc hr => h2 d tail hc hr
    rw [stringEnd?, if_neg hc, if_pos (by simpa using hq)]
  | case5 c rest h1 h2 hq ih =>
    have hc : c ≠ '\\' := plain (fun hc hr => h1 hc hr) fun d tail hc hr => h2 d tail hc hr
    rw [stringEnd?, if_neg hc, if_neg (by simpa using hq), ih]

section Strings

variable {quote : Char} (hq : isBlank quote = false)
include hq

theorem stringEnd?_margin {w : List Char} (hw : Margin w) (a : List Char) :
    stringEnd? quote false (w ++ a) = (stringEnd? quote false a).map (w.length + ·) := by
  induction w with
  | nil => simp
  | cons c w ih =>
    have hc := (hw c List.mem_cons_self).1
    have h1 : c ≠ '\\' := by
      rintro rfl
      cases hc
    have h2 : c ≠ quote := by
      rintro rfl
      rw [hq] at hc
      cases hc
    rw [List.cons_append, stringEnd?, if_neg h1, if_neg h2, ih hw.tail]
    cases stringEnd? quote false a with
    | none => rfl
    | some n =>
      simp only [Option.map_some, List.length_cons]
      congr 1
      omega

theorem stringEnd?_newline (escaped : Bool) (a : List Char) :
    stringEnd? quote escaped ('\n' :: a) = (stringEnd? quote false a).map (· + 1) := by
  cases escaped with
  | true => rfl
  | false =>
    have : '\n' ≠ quote := by
      rintro rfl
      cases hq
    rw [stringEnd?, if_neg (by decide), if_neg this]

omit hq in
/-- What a character does to the end of a string: it is the end, or it leaves the end to the
rest. -/
theorem stringEnd?_char (quote : Char) (escaped : Bool) (c : Char) :
    (∀ rest, stringEnd? quote escaped (c :: rest) = some 1) ∨
      ∃ e, ∀ rest,
        stringEnd? quote escaped (c :: rest) = (stringEnd? quote e rest).map (· + 1) := by
  cases escaped with
  | true => exact .inr ⟨false, fun _ => rfl⟩
  | false =>
    by_cases hc : c = '\\'
    · exact .inr ⟨true, fun rest => by rw [stringEnd?, if_pos hc]⟩
    by_cases hq : c = quote
    · exact .inl fun rest => by rw [stringEnd?, if_neg hc, if_pos hq]
    · exact .inr ⟨false, fun rest => by rw [stringEnd?, if_neg hc, if_neg hq]⟩

/-- **A string ends at the same place**, or at none in both. -/
theorem cut_string {es : List Edit} {o : Int} {a b : List Char} (h : Mended es o a b)
    (escaped : Bool) :
    (stringEnd? quote escaped a = none ∧ stringEnd? quote escaped b = none) ∨
      ∃ m n, stringEnd? quote escaped a = some (m + 1) ∧ stringEnd? quote escaped b = some (n + 1) ∧
        Cut es o a b (m + 1) (n + 1) := by
  induction h generalizing escaped with
  | nil => exact .inl ⟨rfl, rfl⟩
  | @char o c a b hc h ih =>
    rcases stringEnd?_char quote escaped c with hend | ⟨e, hrest⟩
    · exact .inr ⟨0, 0, hend a, hend b, (Cut.zero h).char hc⟩
    · rw [hrest, hrest]
      rcases ih e with ⟨h1, h2⟩ | ⟨m, n, h1, h2, hcut⟩
      · exact .inl ⟨by rw [h1]; rfl, by rw [h2]; rfl⟩
      · exact .inr ⟨m + 1, n + 1, by rw [h1]; rfl, by rw [h2]; rfl, hcut.char hc⟩
  | line hn _ ih =>
    rw [stringEnd?_newline hq, stringEnd?_newline hq]
    rcases ih false with ⟨h1, h2⟩ | ⟨m, n, h1, h2, hcut⟩
    · exact .inl ⟨by rw [h1]; rfl, by rw [h2]; rfl⟩
    · exact .inr ⟨m + 1, n + 1, by rw [h1]; rfl, by rw [h2]; rfl, hcut.line hn⟩
  | mend he hstart hstop hw ht _ ih =>
    rw [stringEnd?_newline hq, stringEnd?_newline hq, stringEnd?_margin hq hw,
      stringEnd?_margin hq ht]
    rcases ih false with ⟨h1, h2⟩ | ⟨m, n, h1, h2, hcut⟩
    · exact .inl ⟨by rw [h1]; rfl, by rw [h2]; rfl⟩
    · exact .inr ⟨_, _, by rw [h1]; rfl, by rw [h2]; rfl, hcut.mend he hstart hstop hw ht⟩

end Strings

/-- **The tokens of an expression are the same**, but for the margins in strings. -/
theorem cut_expressionLexeme {es : List Edit} {o : Int} {a b : List Char} {c : Char}
    (hc : isBlank c = false) (h : Mended es o a b) :
    (expressionLexeme c a).1 = (expressionLexeme c b).1 ∧
      Cut es o a b (expressionLexeme c a).2 (expressionLexeme c b).2 := by
  have hre := h.reindented
  have word : ∀ p : Char → Bool, p '\n' = false →
      Cut es o a b (a.takeWhile p).length (b.takeWhile p).length := by
    intro p hp
    rw [← takeWhile_reindented hp hre]
    refine (cut_inline h (List.takeWhile_prefix p).length_le ?_).1
    rw [take_length_takeWhile]
    intro hm
    rw [List.mem_takeWhile_imp hm] at hp
    cases hp
  have hcc : Reindented (c :: a) (c :: b) := .char (newline_ne_of_not_isBlank hc) hre
  have hstring : ((if isQuote c then stringTail? c a else none) = none ∧
      (if isQuote c then stringTail? c b else none) = none) ∨
      ∃ m n, (if isQuote c then stringTail? c a else none) = some m ∧
        (if isQuote c then stringTail? c b else none) = some n ∧ Cut es o a b m n := by
    split
    · rw [stringTail?_eq, stringTail?_eq]
      rcases cut_string hc h false with h' | ⟨m, n, h1, h2, hcut⟩
      · exact .inl h'
      · exact .inr ⟨_, _, h1, h2, hcut⟩
    · exact .inl ⟨rfl, rfl⟩
  have hop : operators.find? (fun op => op.isPrefixOf (c :: a)) =
      operators.find? fun op => op.isPrefixOf (c :: b) := by
    refine List.find?_congr fun op hop => ?_
    exact hcc.isPrefixOf (operators_spec op hop).2
  unfold expressionLexeme
  rcases hstring with ⟨h1, h2⟩ | ⟨m, n, h1, h2, hcut⟩
  · rw [h1, h2, hop]
    simp only
    split
    · exact ⟨rfl, word _ (by decide)⟩
    split
    · exact ⟨rfl, word _ (by decide)⟩
    split
    · next op hfind =>
      have hpre := List.find?_some hfind
      rw [← hcc.isPrefixOf (operators_spec op (List.mem_of_find?_eq_some hfind)).2] at hpre
      obtain ⟨hne, hword⟩ := operators_spec op (List.mem_of_find?_eq_some hfind)
      cases op with
      | nil => exact absurd rfl hne
      | cons d op =>
        have hpre : op <+: a := by
          rw [List.isPrefixOf_iff_prefix, List.cons_prefix_cons] at hpre
          exact hpre.2
        refine ⟨rfl, (cut_inline h hpre.length_le ?_).1⟩
        rw [← List.prefix_iff_eq_take.mp hpre]
        intro hm
        exact newline_ne_of_not_isBlank (hword _ (List.mem_cons_of_mem d hm)) rfl
    · exact ⟨rfl, .zero h⟩
  · rw [h1, h2]
    exact ⟨rfl, hcut⟩

end MarkupIndent.Markup
