import MarkupIndent.Proofs.Abreast

/-!
# How far reading looks ahead

What is read up to the sign that ends a piece of markup does not depend on what follows the sign.
There is one exception: a quote in an expression opens a string wherever the text has its end, so
a quote that opens none has been looked for in all of the text.

* `Stops`: a function of texts that looks at nothing behind a sign.
* `Lone`, `Quiet`: quotes that open no string, and texts in which none of them finds its end.
* `Reading.onto`: a reading with another rest.
* `readExpression_onto`, `readMustache_onto` and the like: **each piece of markup is read the same**
  whatever follows it, if that is quiet.
-/

namespace MarkupIndent.Markup

open Margin Text

/-! ## Functions that look at nothing behind a sign -/

/-- The function looks at nothing behind a sign. -/
def Stops {α : Type} (d : Char) (f : List Char → α) : Prop :=
  ∀ a x y : List Char, f (a ++ d :: x) = f (a ++ d :: y)

section Stops

variable {d : Char}

/-- A word that has the sign at its end at most. -/
theorem stops_isPrefixOf {word : List Char} (hd : d ∉ word.dropLast) : Stops d word.isPrefixOf := by
  intro a x y
  induction word generalizing a with
  | nil => rfl
  | cons w word ih =>
    cases word with
    | nil => cases a <;> simp [List.isPrefixOf]
    | cons v word =>
      rw [List.dropLast_cons_of_ne_nil (by simp), List.mem_cons, not_or] at hd
      cases a with
      | nil =>
        have : (w == d) = false := beq_eq_false_iff_ne.mpr fun h => hd.1 h.symm
        simp only [List.nil_append, List.isPrefixOf_cons_cons, this, Bool.false_and]
      | cons c a =>
        rw [List.cons_append, List.cons_append, List.isPrefixOf_cons_cons,
          List.isPrefixOf_cons_cons, ih hd.2]

theorem stops_takeWhile {p : Char → Bool} (hd : p d = false) : Stops d (List.takeWhile p) := by
  intro a x y
  induction a with
  | nil => simp [hd]
  | cons c a ih => rw [List.cons_append, List.cons_append, List.takeWhile_cons, List.takeWhile_cons,
      ih]

theorem stops_tagNameLength (h1 : isAsciiLetter d = false) (h2 : isTagNameChar d = false) :
    Stops d tagNameLength := by
  intro a x y
  cases a with
  | nil => simp only [List.nil_append, tagNameLength, h1, Bool.false_eq_true, if_false]
  | cons c a => simp only [List.cons_append, tagNameLength, stops_takeWhile h2 a x y]

theorem stops_tagName (h1 : isAsciiLetter d = false) (h2 : isTagNameChar d = false) :
    Stops d fun text => text.take (tagNameLength text) := by
  have hname : ∀ (c : Char) (rest : List Char), (c :: rest).take (tagNameLength (c :: rest)) =
      if isAsciiLetter c then c :: rest.takeWhile isTagNameChar else [] := by
    intro c rest
    by_cases hc : isAsciiLetter c = true
    · rw [tagNameLength, if_pos hc, if_pos hc, Nat.add_comm, List.take_succ_cons,
        take_length_takeWhile]
    · rw [tagNameLength, if_neg hc, if_neg hc, List.take_zero]
  intro a x y
  cases a with
  | nil => simp only [List.nil_append, hname, h1, Bool.false_eq_true, if_false]
  | cons c a => simp only [List.cons_append, hname, stops_takeWhile h2 a x y]

theorem stops_attributeNameLength (h : isAttributeNameChar d = false) :
    Stops d attributeNameLength := by
  intro a x y
  rw [attributeNameLength, stops_takeWhile h a x y, attributeNameLength]

theorem stops_unquotedTail? : Stops '>' unquotedTail? := by
  intro a x y
  induction a with
  | nil => rfl
  | cons c a ih =>
    have hhead : (a ++ '>' :: x).head? = (a ++ '>' :: y).head? := by cases a <;> rfl
    simp only [List.cons_append, unquotedTail?, hhead, ih]

theorem stops_unquotedLength? : Stops '>' unquotedLength? := by
  intro a x y
  cases a with
  | nil => rfl
  | cons c a => simp only [List.cons_append, unquotedLength?, stops_unquotedTail? a x y]

theorem stops_opensMarkup (h1 : d ≠ '-') (h2 : d ≠ '!') : Stops d opensMarkup := by
  intro a x y
  have hdash : d ∉ ['-', '-'].dropLast := by simpa using h1
  cases a with
  | nil =>
    have : (d == '!') = false := beq_eq_false_iff_ne.mpr h2
    rw [List.nil_append, List.nil_append, opensMarkup_cons, opensMarkup_cons, this, Bool.false_and,
      Bool.false_and]
  | cons c a =>
    rw [List.cons_append, List.cons_append, opensMarkup_cons, opensMarkup_cons,
      stops_isPrefixOf hdash a x y]

theorem stops_endsText (h1 : d ≠ '-') (h2 : d ≠ '!') (h3 : d ≠ '<') : Stops d endsText := by
  intro a x y
  cases a with
  | nil =>
    have : (d == '<') = false := beq_eq_false_iff_ne.mpr h3
    rw [List.nil_append, List.nil_append, endsText, endsText, this, Bool.false_and, Bool.false_and]
  | cons c a =>
    rw [List.cons_append, List.cons_append, endsText, endsText, stops_opensMarkup h1 h2 a x y]

theorem dropWhile_stop {p : Char → Bool} (hd : p d = false) (a x : List Char) :
    (a ++ d :: x).dropWhile p = a.dropWhile p ++ d :: x := by
  induction a with
  | nil => simp [hd]
  | cons c a ih =>
    rw [List.cons_append, List.dropWhile_cons, List.dropWhile_cons, ih]
    split <;> rfl

/-- What is left of a text after a word that has no such sign. -/
theorem dropWord?_stop {name : List Char} (hn : ∀ w ∈ name, sameLetter w d = false)
    (a : List Char) : (∀ x, dropWord? name (a ++ d :: x) = none) ∨
      ∃ b, ∀ x, dropWord? name (a ++ d :: x) = some (b ++ d :: x) := by
  induction name generalizing a with
  | nil => exact .inr ⟨a, fun x => by cases a <;> rfl⟩
  | cons w name ih =>
    cases a with
    | nil => exact .inl fun x => by simp [dropWord?, hn w List.mem_cons_self]
    | cons c a =>
      by_cases hc : sameLetter w c = true
      · simp only [List.cons_append, dropWord?, hc, if_true]
        exact ih (fun v hv => hn v (List.mem_cons_of_mem w hv)) a
      · exact .inl fun x => by simp [dropWord?, hc]

theorem stops_closesRaw (kind : RawKind) : Stops '>' (closesRaw kind.name) := by
  have hn : ∀ w ∈ kind.name, sameLetter w '>' = false := by
    cases kind <;> simp [RawKind.name, sameLetter, lowerChar]
  intro a x y
  by_cases hsign : ['<', '/'].isPrefixOf (a ++ '>' :: x) = true
  · rcases a with _ | ⟨c, _ | ⟨c', a⟩⟩
    · simp at hsign
    · simp at hsign
    · simp only [List.cons_append, List.isPrefixOf_cons_cons, Bool.and_eq_true, beq_iff_eq] at hsign
      obtain ⟨rfl, rfl, -⟩ := hsign
      have hblank : isBlank '>' = false := rfl
      simp only [List.cons_append, closesRaw, trimLeft, dropWhile_stop hblank]
      rcases dropWord?_stop hn (a.dropWhile isBlank) with h | ⟨b, h⟩
      · rw [h, h]
      · rw [h, h]
        simp only [dropWhile_stop hblank]
        cases b.dropWhile isBlank <;> rfl
  · have none_of : ∀ x : List Char, ¬ ['<', '/'].isPrefixOf x = true →
        closesRaw kind.name x = false :=
      fun x hx => Bool.eq_false_iff.mpr (mt prefix_of_closesRaw hx)
    rw [none_of _ hsign, none_of _ (by rwa [stops_isPrefixOf (by decide) a y x])]

/-- A search that ends before the sign. -/
theorem search?_stop {found : List Char → Bool} (hf : Stops d found) {a : List Char} {n : Nat}
    (hn : n ≤ a.length) (x y : List Char) (h : search? found (a ++ d :: x) = some n) :
    search? found (a ++ d :: y) = some n := by
  induction a generalizing n with
  | nil =>
    obtain rfl : n = 0 := by simpa using hn
    have hfound : found (d :: x) = true := by
      by_contra hne
      rw [List.nil_append, search?, if_neg hne] at h
      obtain ⟨m, -, hm⟩ := Option.map_eq_some_iff.mp h
      omega
    have := hf [] x y
    rw [List.nil_append, List.nil_append, hfound] at this
    rw [List.nil_append, search?, if_pos this.symm]
  | cons c a ih =>
    have hsame := hf (c :: a) x y
    rw [List.cons_append] at h hsame ⊢
    rw [List.cons_append] at hsame
    rw [search?] at h ⊢
    rw [← hsame]
    split at h
    · next hfound =>
      rw [if_pos hfound]
      exact h
    · next hne =>
      rw [if_neg hne]
      obtain ⟨m, hm, rfl⟩ := Option.map_eq_some_iff.mp h
      rw [ih (by simpa using hn) hm, Option.map_some]

end Stops

/-! ## Strings -/

/-- A string that ends within a text ends there whatever follows. -/
theorem stringEnd?_found {quote : Char} {escaped : Bool} {a x : List Char} {n : Nat}
    (h : stringEnd? quote escaped (a ++ x) = some n) (hn : n ≤ a.length) (y : List Char) :
    stringEnd? quote escaped (a ++ y) = some n := by
  induction a generalizing escaped n with
  | nil =>
    obtain rfl : n = 0 := by simpa using hn
    cases x with
    | nil => cases escaped <;> cases h
    | cons c x =>
      rcases stringEnd?_char quote escaped c with hend | ⟨e, hrest⟩
      · rw [List.nil_append, hend] at h
        cases h
      · rw [List.nil_append, hrest] at h
        obtain ⟨m, -, hm⟩ := Option.map_eq_some_iff.mp h
        omega
  | cons c a ih =>
    rw [List.cons_append] at h ⊢
    rcases stringEnd?_char quote escaped c with hend | ⟨e, hrest⟩
    · rwa [hend] at h ⊢
    · rw [hrest] at h ⊢
      obtain ⟨m, hm, rfl⟩ := Option.map_eq_some_iff.mp h
      rw [ih hm (by simpa using hn), Option.map_some]

/-- If a string has no end, then neither the text up to a sign nor the text behind it has one. -/
theorem stringEnd?_none {quote d : Char} (hd : d ≠ '\\') {escaped : Bool} {a x : List Char}
    (h : stringEnd? quote escaped (a ++ d :: x) = none) :
    stringEnd? quote false x = none ∧
      ∀ y, stringEnd? quote false y = none → stringEnd? quote escaped (a ++ d :: y) = none := by
  induction a generalizing escaped with
  | nil =>
    rw [List.nil_append] at h
    have hrest : ∀ y, stringEnd? quote escaped (d :: y) =
        (stringEnd? quote false y).map (· + 1) := by
      intro y
      cases escaped with
      | true => rfl
      | false =>
        by_cases hq : d = quote
        · rw [stringEnd?, if_neg hd, if_pos hq] at h
          cases h
        · rw [stringEnd?, if_neg hd, if_neg hq]
    rw [hrest, Option.map_eq_none_iff] at h
    exact ⟨h, fun y hy => by rw [List.nil_append, hrest, hy, Option.map_none]⟩
  | cons c a ih =>
    rw [List.cons_append] at h
    rcases stringEnd?_char quote escaped c with hend | ⟨e, hrest⟩
    · rw [hend] at h
      cases h
    · rw [hrest, Option.map_eq_none_iff] at h
      obtain ⟨h1, h2⟩ := ih h
      exact ⟨h1, fun y hy => by rw [List.cons_append, hrest, h2 y hy, Option.map_none]⟩

/-- A quote that is a token of an expression by itself: it opens no string. -/
def Lone (tokens : Array Token) (quote : Char) : Prop :=
  isQuote quote = true ∧ ∃ i : Nat, Stands tokens i .expression [quote]

/-- No quote that opens no string finds its end in the second text, if not in the first. -/
def Quiet (tokens : Array Token) (x y : List Char) : Prop :=
  ∀ quote, Lone tokens quote → stringTail? quote x = none → stringTail? quote y = none

theorem Quiet.mono {tokens more : Array Token} (he : Extends tokens more) {x y : List Char}
    (h : Quiet more x y) : Quiet tokens x y :=
  fun quote hq => h quote ⟨hq.1, hq.2.imp fun _ hi => hi.mono he⟩

theorem Quiet.append {tokens : Array Token} {x y : List Char} (h : Quiet tokens x y) {d : Char}
    (hd : d ≠ '\\') (a : List Char) : Quiet tokens (a ++ d :: x) (a ++ d :: y) := by
  intro quote hq hx
  rw [stringTail?_eq] at hx ⊢
  obtain ⟨h1, h2⟩ := stringEnd?_none hd hx
  refine h2 y ?_
  rw [← stringTail?_eq] at h1 ⊢
  exact h quote hq h1

theorem isQuote_cases {c : Char} (h : isQuote c = true) :
    c = '\'' ∨ c = '"' ∨ c = Char.ofNat 0x60 := by
  have hc : c = '\'' ∨ c = '"' ∨ c.toNat = 0x60 := by
    simpa [isQuote, or_assoc] using h
  refine hc.imp_right (Or.imp_right fun hc => ?_)
  rw [← hc, Char.ofNat_toNat]

/-- A quote that opens no string is a token by itself. -/
theorem expressionLexeme_lone {c : Char} {rest : List Char} (hquote : isQuote c = true)
    (hrest : stringTail? c rest = none) : expressionLexeme c rest = (.expression, 0) := by
  have hsigns : isDigit c = false ∧ isNameStart c = false ∧ punctuation.contains c = false ∧
      ∀ op ∈ operators, op.head? ≠ some c := by
    rcases isQuote_cases hquote with rfl | rfl | rfl <;> decide
  obtain ⟨h1, h2, h3, h4⟩ := hsigns
  have h5 : (operators.find? fun op => op.isPrefixOf (c :: rest)) = none := by
    rw [List.find?_eq_none]
    intro op hop hpre
    obtain ⟨hne, -⟩ := operators_spec op hop
    cases op with
    | nil => exact hne rfl
    | cons d op =>
      rw [List.isPrefixOf_cons_cons, Bool.and_eq_true, beq_iff_eq] at hpre
      exact h4 _ hop (by rw [hpre.1]; rfl)
  simp only [expressionLexeme, hquote, if_true, hrest, h1, h2, h3, h5, Bool.false_eq_true,
    if_false]

/-- **A token of an expression is the same** whatever follows the brace that closes the expression,
if it is no quote that finds its end there. -/
theorem expressionLexeme_onto {c : Char} {a x y : List Char}
    (hle : (expressionLexeme c (a ++ '}' :: x)).2 ≤ a.length)
    (hq : isQuote c = true → expressionLexeme c (a ++ '}' :: x) = (.expression, 0) →
      stringTail? c x = none → stringTail? c y = none) :
    expressionLexeme c (a ++ '}' :: y) = expressionLexeme c (a ++ '}' :: x) := by
  have hword : ∀ p : Char → Bool, p '}' = false →
      ((a ++ '}' :: y).takeWhile p).length = ((a ++ '}' :: x).takeWhile p).length :=
    fun p hp => by rw [stops_takeWhile hp a y x]
  have hop : (operators.find? fun op => op.isPrefixOf (c :: (a ++ '}' :: y))) =
      operators.find? fun op => op.isPrefixOf (c :: (a ++ '}' :: x)) := by
    refine List.find?_congr fun op hop => ?_
    have : '}' ∉ op.dropLast := by
      revert op
      decide
    exact stops_isPrefixOf this (c :: a) y x
  by_cases hquote : isQuote c = true
  · cases hx : stringTail? c (a ++ '}' :: x) with
    | some n =>
      have hlexeme : expressionLexeme c (a ++ '}' :: x) = (.expression, n) := by
        simp only [expressionLexeme, hquote, if_true, hx]
      rw [hlexeme] at hle ⊢
      have hy : stringTail? c (a ++ '}' :: y) = some n := by
        rw [stringTail?_eq] at hx ⊢
        exact stringEnd?_found hx hle ('}' :: y)
      simp only [expressionLexeme, hquote, if_true, hy]
    | none =>
      have hx' := hx
      rw [stringTail?_eq] at hx'
      obtain ⟨h1, h2⟩ := stringEnd?_none (by decide) hx'
      have hlone := expressionLexeme_lone hquote hx
      rw [hlone, expressionLexeme_lone hquote]
      rw [stringTail?_eq]
      refine h2 y ?_
      rw [← stringTail?_eq] at h1 ⊢
      exact hq hquote hlone h1
  · simp only [expressionLexeme, hquote, if_false, hop, Bool.false_eq_true,
      hword (fun d => isWord d || d == '.') (by decide),
      hword (fun d => isWord d || d == '$') (by decide)]

/-! ## Readings with another rest -/

namespace Reading

/-- The reading with another rest. -/
def onto (r : Reading) (rest : List Char) : Reading :=
  { r with rest := rest }

section Onto

variable (r : Reading) (rest : List Char)

@[simp] theorem onto_rest : (r.onto rest).rest = rest := rfl

@[simp] theorem onto_place : (r.onto rest).place = r.place := rfl

@[simp] theorem onto_tokens : (r.onto rest).tokens = r.tokens := rfl

@[simp] theorem onto_next : (r.onto rest).next = r.next := rfl

@[simp] theorem onto_last : (r.onto rest).last = r.last := rfl

end Onto

variable {r s : Reading} {d : Char} {a x : List Char}

theorem skip_onto {n : Nat} (hn : n ≤ r.rest.length) (y : List Char) :
    (r.onto (r.rest.take n ++ y)).skip n = (r.skip n).onto y := by
  have hlen : (r.rest.take n).length = n := by rw [List.length_take, Nat.min_eq_left hn]
  simp only [skip, onto, List.take_left' hlen, List.drop_left' hlen]

theorem emit_onto (kind : TokenKind) {n : Nat} (hn : n ≤ r.rest.length) (y : List Char) :
    (r.onto (r.rest.take n ++ y)).emit kind n = (r.emit kind n).onto y := by
  have hlen : (r.rest.take n).length = n := by rw [List.length_take, Nat.min_eq_left hn]
  simp only [emit, skip, onto, List.take_left' hlen, List.drop_left' hlen]

/-- A sign, and what is left of the text after it. -/
theorem emit_sign {sign after : List Char} (kind : TokenKind) (h : r.rest = sign ++ after) :
    (r.emit kind sign.length).rest = after ∧
      ∀ y, (r.onto (sign ++ y)).emit kind sign.length = (r.emit kind sign.length).onto y := by
  refine ⟨by rw [rest_emit, h, List.drop_left' rfl], fun y => ?_⟩
  have hlen : sign.length ≤ r.rest.length := by
    rw [h, List.length_append]
    omega
  have := emit_onto kind hlen y
  rwa [h, List.take_left' rfl] at this

/-- A token before a sign. -/
theorem emit_before {kind : TokenKind} {n : Nat} (h : (r.emit kind n).rest = a ++ d :: x) :
    ∃ b, r.rest = b ++ d :: x ∧
      ∀ y, (r.onto (b ++ d :: y)).emit kind n = (r.emit kind n).onto (a ++ d :: y) := by
  rw [rest_emit] at h
  have hn : n ≤ r.rest.length := by
    have := congrArg List.length h
    simp only [List.length_drop, List.length_append, List.length_cons] at this
    omega
  refine ⟨r.rest.take n ++ a, ?_, fun y => ?_⟩
  · rw [List.append_assoc, ← h, List.take_append_drop]
  · rw [List.append_assoc, emit_onto _ hn]

/-- Blanks before a sign. -/
theorem skipBlanks_before (hd : isBlank d = false) (h : r.skipBlanks.rest = a ++ d :: x) :
    ∃ b, r.rest = b ++ d :: x ∧
      ∀ y, (r.onto (b ++ d :: y)).skipBlanks = r.skipBlanks.onto (a ++ d :: y) := by
  have hle := (List.takeWhile_prefix (l := r.rest) isBlank).length_le
  rw [rest_skipBlanks] at h
  refine ⟨r.rest.takeWhile isBlank ++ a, ?_, fun y => ?_⟩
  · rw [List.append_assoc, ← h, List.takeWhile_append_dropWhile]
  · have hhead : ∀ c ∈ (a ++ d :: y).head?, isBlank c = false := by
      intro c hc
      cases a with
      | nil =>
        obtain rfl : d = c := by simpa using hc
        exact hd
      | cons e a =>
        obtain rfl : e = c := by simpa using hc
        have := List.head?_dropWhile_not isBlank r.rest
        rw [h] at this
        simpa using this
    have hblanks : ((r.rest.takeWhile isBlank ++ (a ++ d :: y)).takeWhile isBlank).length =
        (r.rest.takeWhile isBlank).length := by
      rw [List.takeWhile_append_of_pos fun c hc => List.mem_takeWhile_imp hc]
      cases hy : a ++ d :: y with
      | nil => simp
      | cons c rest =>
        rw [List.takeWhile_cons_of_neg (by simp [hhead c (by rw [hy]; rfl)]), List.append_nil]
    rw [skipBlanks, onto_rest, List.append_assoc, hblanks, skipBlanks, ← skip_onto hle,
      take_length_takeWhile]

theorem startsWith_before {word : List Char} (hd : d ∉ word.dropLast) (h : r.rest = a ++ d :: x)
    (y : List Char) : (r.onto (a ++ d :: y)).startsWith word = r.startsWith word := by
  rw [startsWith, startsWith, onto_rest, h]
  exact stops_isPrefixOf hd a y x

/-- Stretches of the next characters. -/
theorem readStretches_onto (blank : Option TokenKind) (content : TokenKind) {parts : List Stretch}
    (h : totalLength parts ≤ r.rest.length) (y : List Char) :
    readStretches blank content parts (r.onto (r.rest.take (totalLength parts) ++ y)) =
      (readStretches blank content parts r).onto y := by
  induction parts generalizing r with
  | nil => simp [readStretches, totalLength, onto]
  | cons p parts ih =>
    have hsplit : ∀ n, n + totalLength parts ≤ r.rest.length →
        r.rest.take (n + totalLength parts) ++ y =
          r.rest.take n ++ ((r.rest.drop n).take (totalLength parts) ++ y) := by
      intro n _
      rw [List.take_add, List.append_assoc]
    have hskip : ∀ n, n + totalLength parts ≤ r.rest.length →
        totalLength parts ≤ (r.rest.drop n).length := by
      intro n hn
      rw [List.length_drop]
      omega
    cases p with
    | blank n =>
      simp only [totalLength, Stretch.length] at h ⊢
      rw [hsplit n h]
      cases blank with
      | none =>
        simp only [readStretches]
        rw [skip_onto (by omega)]
        exact ih (r := r.skip n) (hskip n h)
      | some kind =>
        simp only [readStretches]
        rw [emit_onto _ (by omega)]
        exact ih (r := r.emit kind n) (hskip n h)
    | content n =>
      simp only [totalLength, Stretch.length] at h ⊢
      rw [hsplit n h]
      simp only [readStretches]
      rw [emit_onto _ (by omega)]
      exact ih (r := r.emit content n) (hskip n h)

theorem run_onto (blank : Option TokenKind) (content : TokenKind) {n : Nat}
    (hn : n ≤ r.rest.length) (y : List Char) :
    (r.onto (r.rest.take n ++ y)).run blank content n = (r.run blank content n).onto y := by
  have hlen : (r.rest.take n).length = n := by rw [List.length_take, Nat.min_eq_left hn]
  have htotal : totalLength (stretches (r.rest.take n)) = n := by rw [totalLength_stretches, hlen]
  rw [run, run, onto_rest, List.take_left' hlen]
  have := readStretches_onto blank content (htotal.symm ▸ hn) y
  rwa [htotal] at this

/-! ## Expressions and mustaches -/

/-- **An expression is read the same** whatever follows its closing brace. -/
theorem readExpression_onto {opened : Cursor} {depth : Nat}
    (h : readExpression opened depth r = .ok s) : ∃ a, r.rest = a ++ '}' :: s.rest ∧
      ∀ y, Quiet s.tokens s.rest y →
        readExpression opened depth (r.onto (a ++ '}' :: y)) = .ok (s.onto y) := by
  fun_induction readExpression opened depth r with
  | case1 => cases h
  | case2 depth r c rest hr hd =>
    cases h
    obtain ⟨rfl, rfl⟩ := hd
    obtain ⟨b, hb, hskip⟩ := skipBlanks_before (d := '}') (a := []) rfl hr
    have hclose : r.skipBlanks.rest = ['}'] ++ rest := hr
    obtain ⟨hrest, hemit⟩ := emit_sign .punctuator hclose
    rw [List.length_singleton] at hrest hemit
    rw [hrest]
    refine ⟨b, hb, fun y _ => ?_⟩
    have hr' : (r.onto (b ++ '}' :: y)).skipBlanks.rest = '}' :: y := by
      rw [hskip]
      rfl
    rw [readExpression_cons hr', if_pos ⟨rfl, rfl⟩, hskip]
    exact congrArg Except.ok (hemit y)
  | case3 depth r c rest hr hd lexeme ih =>
    obtain ⟨a, ha, hall⟩ := ih h
    have hreads := reads_readExpression h
    rw [rest_emit, hr, List.drop_succ_cons] at ha
    have hle : lexeme.2 ≤ rest.length :=
      (expressionLexeme_spec rest (not_isBlank_of_skipBlanks hr)).1
    have hrest : rest = rest.take lexeme.2 ++ a ++ '}' :: s.rest := by
      rw [List.append_assoc, ← ha, List.take_append_drop]
    have hr₀ : r.skipBlanks.rest = (c :: (rest.take lexeme.2 ++ a)) ++ '}' :: s.rest := by
      rw [hr, List.cons_append, ← hrest]
    obtain ⟨b, hb, hskip⟩ := skipBlanks_before rfl hr₀
    refine ⟨b, hb, fun y hy => ?_⟩
    have hr' : (r.onto (b ++ '}' :: y)).skipBlanks.rest =
        c :: (rest.take lexeme.2 ++ a ++ '}' :: y) := by
      rw [hskip]
      rfl
    have hsame : expressionLexeme c (rest.take lexeme.2 ++ a ++ '}' :: y) = lexeme := by
      have hx : expressionLexeme c (rest.take lexeme.2 ++ a ++ '}' :: s.rest) = lexeme := by
        rw [← hrest]
      refine (expressionLexeme_onto ?_ fun hq hlone => hy c ⟨hq, r.next, ?_⟩).trans hx
      · rw [hx, List.length_append, List.length_take]
        omega
      · rw [hx] at hlone
        have hstands := stands_emit r.skipBlanks lexeme.1 (lexeme.2 + 1)
        rw [hlone, hr] at hstands
        rw [hlone] at hreads
        exact hstands.mono hreads.1.extends
    rw [readExpression_cons hr', if_neg hd, hsame, hskip]
    have hemit := emit_onto (r := r.skipBlanks) lexeme.1 (n := lexeme.2 + 1)
      (by rw [hr, List.length_cons]; omega) (a ++ '}' :: y)
    rw [hr, List.take_succ_cons, List.cons_append, ← List.append_assoc] at hemit
    rw [List.cons_append, hemit]
    have htake : (rest.take lexeme.2 ++ a ++ '}' :: y).take lexeme.2 = rest.take lexeme.2 := by
      rw [List.append_assoc, List.take_left' (by rw [List.length_take, Nat.min_eq_left hle])]
    rw [htake]
    exact hall y hy

theorem readKeyword_before {word : List Char} (hd : isBlank d = false)
    (hl : isAsciiLetter d = false)
    (h : readKeyword r = .ok (word, s)) (hs : s.rest = a ++ d :: x) :
    ∃ b, r.rest = b ++ d :: x ∧
      ∀ y, readKeyword (r.onto (b ++ d :: y)) = .ok (word, s.onto (a ++ d :: y)) := by
  unfold readKeyword at h
  simp only at h
  split at h
  · cases h
  · next hword =>
    cases h
    obtain ⟨b, hb, hemit⟩ := emit_before hs
    obtain ⟨b', hb', hskip⟩ := skipBlanks_before hd hb
    refine ⟨b', hb', fun y => ?_⟩
    have hsame : (b ++ d :: y).takeWhile isAsciiLetter =
        r.skipBlanks.rest.takeWhile isAsciiLetter := by
      rw [hb]
      exact stops_takeWhile hl b y x
    simp only [readKeyword, hskip, onto_rest, hsame, hword, hemit]
    rfl

/-- **A mustache is read the same** whatever follows it. -/
theorem readMustache_onto {m : Mustache} (h : readMustache r = .ok (m, s)) :
    ∃ a, r.rest = a ++ '}' :: s.rest ∧
      ∀ y, Quiet s.tokens s.rest y → readMustache (r.onto (a ++ '}' :: y)) = .ok (m, s.onto y) := by
  unfold readMustache at h
  split at h
  · next hsign =>
    obtain ⟨⟨word, s1⟩, h1, h⟩ := bind_eq_ok.mp h
    obtain ⟨s2, h2, h⟩ := bind_eq_ok.mp h
    cases h
    obtain ⟨a, ha, hexpression⟩ := readExpression_onto h2
    obtain ⟨b, hb, hkeyword⟩ := readKeyword_before rfl rfl h1 ha
    obtain ⟨c, hc, hemit⟩ := emit_before hb
    refine ⟨c, hc, fun y hy => ?_⟩
    rw [readMustache, startsWith_before (by decide) hc, if_pos hsign, hemit]
    exact bind_eq_ok.mpr ⟨_, hkeyword y, bind_eq_ok.mpr ⟨_, hexpression y hy, rfl⟩⟩
  · next hsign =>
    obtain ⟨s2, h2, h⟩ := bind_eq_ok.mp h
    cases h
    obtain ⟨a, ha, hexpression⟩ := readExpression_onto h2
    obtain ⟨c, hc, hemit⟩ := emit_before ha
    refine ⟨c, hc, fun y hy => ?_⟩
    rw [readMustache, startsWith_before (by decide) hc, if_neg hsign, hemit]
    exact bind_eq_ok.mpr ⟨_, hexpression y hy, rfl⟩

/-- **The tag of a block is read the same** whatever follows it. -/
theorem readBlockTag_onto {b : BlockTag} (h : readBlockTag r = .ok (b, s)) :
    ∃ a, r.rest = a ++ '}' :: s.rest ∧
      ∀ y, Quiet s.tokens s.rest y → readBlockTag (r.onto (a ++ '}' :: y)) = .ok (b, s.onto y) := by
  obtain ⟨⟨word, s1⟩, h1, h⟩ := bind_eq_ok.mp h
  obtain ⟨s2, h2, h⟩ := bind_eq_ok.mp h
  cases h
  obtain ⟨a, ha, hexpression⟩ := readExpression_onto h2
  obtain ⟨b, hb, hkeyword⟩ := readKeyword_before rfl rfl h1 ha
  obtain ⟨c, hc, hemit⟩ := emit_before hb
  refine ⟨c, hc, fun y hy => ?_⟩
  rw [readBlockTag, hemit]
  exact bind_eq_ok.mpr ⟨_, hkeyword y, bind_eq_ok.mpr ⟨_, hexpression y hy, rfl⟩⟩

/-! ## Attributes -/

theorem readsMarkup_readQuoted {quote : Char} (hq : isBlank quote = false)
    {values ms : List Mustache} (h : readQuoted quote values r = .ok (ms, s)) :
    ReadsMarkup r s := by
  fun_induction readQuoted quote values r with
  | case1 => cases h
  | case2 values r rest hr =>
    cases h
    have hsign : r.startsWith [quote] = true := by simp [startsWith, hr]
    exact readsMarkup_sign hsign (by simp) (by simpa [Word] using hq)
  | case3 => cases h
  | case4 values r rest m t hm hr hc ih =>
    exact (reads_readMustache (by simp [startsWith, hr]) hm).1.trans (ih h)
  | case5 values r c rest hr hc hb n ih => exact (readsMarkup_literals r).trans (ih h)

/-- A quoted value is read the same whatever follows its closing quote. -/
theorem readQuoted_onto {quote : Char} (hb : isBlank quote = false) (hq : quote ≠ '\\')
    {values ms : List Mustache}
    (h : readQuoted quote values r = .ok (ms, s)) : ∃ a, r.rest = a ++ quote :: s.rest ∧
      ∀ y, Quiet s.tokens s.rest y →
        readQuoted quote values (r.onto (a ++ quote :: y)) = .ok (ms, s.onto y) := by
  fun_induction readQuoted quote values r with
  | case1 => cases h
  | case2 values r rest hr =>
    cases h
    have hclose : r.rest = [quote] ++ rest := hr
    obtain ⟨hrest, hemit⟩ := emit_sign .punctuator hclose
    rw [List.length_singleton] at hrest hemit
    refine ⟨[], by rw [hr, hrest, List.nil_append], fun y _ => ?_⟩
    rw [List.nil_append, readQuoted_cons _ (onto_rest r (quote :: y)), if_pos rfl]
    exact congrArg (fun u => Except.ok (_, u)) (hemit y)
  | case3 => cases h
  | case4 values r rest m t hm hr hc ih =>
    obtain ⟨a, ha, hall⟩ := ih h
    obtain ⟨b, hrest, hmustache⟩ := readMustache_onto hm
    rw [hr] at hrest
    cases b with
    | nil => cases (List.cons.inj hrest).1
    | cons c b =>
      obtain ⟨rfl, hrest⟩ := List.cons.inj hrest
      refine ⟨'{' :: b ++ '}' :: a, by simp [hr, hrest, ha], fun y hy => ?_⟩
      have hquiet : Quiet t.tokens t.rest (a ++ quote :: y) := by
        rw [ha]
        refine (hy.append hq a).mono ?_
        exact (readsMarkup_readQuoted hb h).extends
      rw [List.append_assoc, List.cons_append, List.cons_append,
        readQuoted_cons _ (onto_rest r ('{' :: (b ++ '}' :: (a ++ quote :: y)))), if_neg hc,
        if_pos rfl]
      exact bind_eq_ok.mpr ⟨_, hmustache _ hquiet, hall y hy⟩
  | case5 values r c rest hr hc hbrace n ih =>
    obtain ⟨a, ha, hall⟩ := ih h
    have hn : n ≤ rest.length := (List.takeWhile_prefix _).length_le
    rw [rest_run, hr, List.drop_succ_cons] at ha
    have hrest : rest = rest.take n ++ a ++ quote :: s.rest := by
      rw [List.append_assoc, ← ha, List.take_append_drop]
    refine ⟨c :: (rest.take n ++ a), by rw [hr, List.cons_append, ← hrest], fun y hy => ?_⟩
    have hsame : ((rest.take n ++ a ++ quote :: y).takeWhile fun d => d != quote && d != '{') =
        rest.takeWhile fun d => d != quote && d != '{' := by
      conv_rhs => rw [hrest]
      exact stops_takeWhile (by simp) _ y s.rest
    have hrun := run_onto (r := r) none .literal (n := n + 1) (by rw [hr, List.length_cons]; omega)
      (a ++ quote :: y)
    rw [hr, List.take_succ_cons, List.cons_append, ← List.append_assoc] at hrun
    rw [List.cons_append, readQuoted_cons (c := c) _ rfl, if_neg hc, if_neg hbrace, hsame, hrun]
    exact hall y hy

theorem readValue_before {ms : List Mustache} (h : readValue r = .ok (ms, s))
    (hs : s.rest = a ++ '>' :: x) : ∃ b, r.rest = b ++ '>' :: x ∧
      ∀ y, Quiet s.tokens x y →
        readValue (r.onto (b ++ '>' :: y)) = .ok (ms, s.onto (a ++ '>' :: y)) := by
  have hquiet : ∀ y, Quiet s.tokens x y → Quiet s.tokens s.rest (a ++ '>' :: y) := by
    intro y hy
    rw [hs]
    exact hy.append (by decide) a
  have hjoin : ∀ (b : List Char) (d : Char) (y : List Char),
      b ++ d :: (a ++ '>' :: y) = (b ++ d :: a) ++ '>' :: y :=
    fun b d y => by rw [List.append_assoc, List.cons_append]
  have hquoted : ∀ {quote : Char}, isBlank quote = false → quote ≠ '\\' →
      readQuoted quote [] (r.emit .punctuator 1) = .ok (ms, s) → ∃ b, r.rest = b ++ '>' :: x ∧
        ∀ y, Quiet s.tokens x y →
          readQuoted quote [] ((r.onto (b ++ '>' :: y)).emit .punctuator 1) =
            .ok (ms, s.onto (a ++ '>' :: y)) := by
    intro quote hblank hslash h
    obtain ⟨b, hb, hall⟩ := readQuoted_onto hblank hslash h
    rw [hs, hjoin] at hb
    obtain ⟨c, hc, hemit⟩ := emit_before hb
    refine ⟨c, hc, fun y hy => ?_⟩
    rw [hemit, ← hjoin]
    exact hall _ (hquiet y hy)
  unfold readValue at h
  split at h
  · next hq =>
    obtain ⟨b, hb, hall⟩ := hquoted rfl (by decide) h
    refine ⟨b, hb, fun y hy => ?_⟩
    rw [readValue, startsWith_before (by decide) hb, if_pos hq]
    exact hall y hy
  next hnq =>
  split at h
  · next hq =>
    obtain ⟨b, hb, hall⟩ := hquoted rfl (by decide) h
    refine ⟨b, hb, fun y hy => ?_⟩
    rw [readValue, startsWith_before (by decide) hb, if_neg hnq, startsWith_before (by decide) hb,
      if_pos hq]
    exact hall y hy
  next hnq' =>
  split at h
  · next hbrace =>
    obtain ⟨⟨m, t⟩, h1, h⟩ := bind_eq_ok.mp h
    cases h
    obtain ⟨b, hb, hall⟩ := readMustache_onto h1
    rw [hs, hjoin] at hb
    refine ⟨_, hb, fun y hy => ?_⟩
    rw [readValue, startsWith_before (by decide) hb, if_neg hnq, startsWith_before (by decide) hb,
      if_neg hnq', startsWith_before (by decide) hb, if_pos hbrace, ← hjoin]
    exact bind_eq_ok.mpr ⟨_, hall _ (hquiet y hy), rfl⟩
  next hnb =>
  split at h
  · next n hn =>
    cases h
    obtain ⟨b, hb, hemit⟩ := emit_before hs
    refine ⟨b, hb, fun y hy => ?_⟩
    rw [readValue, startsWith_before (by decide) hb, if_neg hnq, startsWith_before (by decide) hb,
      if_neg hnq', startsWith_before (by decide) hb, if_neg hnb, onto_rest,
      stops_unquotedLength? b y x, ← hb, hn]
    simp only [hemit]
  · cases h

theorem readAttribute_before {t : Attribute} (h : readAttribute r = .ok (t, s))
    (hs : s.rest = a ++ '>' :: x) : ∃ b, r.rest = b ++ '>' :: x ∧
      ∀ y, Quiet s.tokens x y →
        readAttribute (r.onto (b ++ '>' :: y)) = .ok (t, s.onto (a ++ '>' :: y)) := by
  unfold readAttribute at h
  split at h
  · next hbrace =>
    obtain ⟨⟨m, u⟩, h1, h⟩ := bind_eq_ok.mp h
    cases h
    obtain ⟨b, hb, hall⟩ := readMustache_onto h1
    have hjoin : ∀ y, b ++ '}' :: (a ++ '>' :: y) = (b ++ '}' :: a) ++ '>' :: y :=
      fun y => by rw [List.append_assoc, List.cons_append]
    rw [hs, hjoin] at hb
    refine ⟨_, hb, fun y hy => ?_⟩
    have hquiet : Quiet s.tokens s.rest (a ++ '>' :: y) := by
      rw [hs]
      exact hy.append (by decide) a
    rw [readAttribute, startsWith_before (by decide) hb, if_pos hbrace, ← hjoin]
    exact bind_eq_ok.mpr ⟨_, hall _ hquiet, rfl⟩
  next hnb =>
  simp only at h
  split at h
  · cases h
  next hn =>
  have hlength : ∀ {b : List Char}, r.rest = b ++ '>' :: x →
      ∀ y, attributeNameLength (b ++ '>' :: y) = attributeNameLength r.rest := by
    intro b hb y
    rw [hb]
    exact stops_attributeNameLength (by decide) b y x
  split at h
  · next heq =>
    obtain ⟨⟨ms, u⟩, h1, h⟩ := bind_eq_ok.mp h
    cases h
    obtain ⟨b1, hb1, hvalue⟩ := readValue_before h1 hs
    obtain ⟨b2, hb2, hskip2⟩ := skipBlanks_before rfl hb1
    obtain ⟨b3, hb3, hemit3⟩ := emit_before hb2
    obtain ⟨b4, hb4, hskip4⟩ := skipBlanks_before rfl hb3
    obtain ⟨b5, hb5, hemit5⟩ := emit_before hb4
    refine ⟨b5, hb5, fun y hy => ?_⟩
    rw [readAttribute, startsWith_before (by decide) hb5, if_neg hnb]
    simp only [onto_rest, hlength hb5]
    rw [if_neg hn, hemit5, hskip4, startsWith_before (by decide) hb3, if_pos heq, hemit3, hskip2]
    exact bind_eq_ok.mpr ⟨_, hvalue y hy, rfl⟩
  · next hneq =>
    cases h
    obtain ⟨b, hb, hemit⟩ := emit_before hs
    refine ⟨b, hb, fun y hy => ?_⟩
    have hskipped : (r.emit .name (attributeNameLength r.rest)).skipBlanks.rest =
        a.dropWhile isBlank ++ '>' :: x := by
      rw [rest_skipBlanks, hs, dropWhile_stop rfl]
    have hsign : ((r.emit .name (attributeNameLength r.rest)).onto
        (a ++ '>' :: y)).skipBlanks.startsWith ['='] =
          (r.emit .name (attributeNameLength r.rest)).skipBlanks.startsWith ['='] := by
      rw [startsWith, startsWith, rest_skipBlanks, onto_rest, dropWhile_stop rfl, hskipped]
      exact stops_isPrefixOf (by decide) _ y x
    rw [readAttribute, startsWith_before (by decide) hb, if_neg hnb]
    simp only [onto_rest, hlength hb]
    rw [if_neg hn, hemit, hsign, if_neg hneq]
    rfl

/-! ## Tags of elements -/

theorem readsMarkup_readAttributes {before as : List Attribute} {closed : Bool}
    (h : readAttributes before r = .ok (as, closed, s)) : ReadsMarkup r s := by
  fun_induction readAttributes before r with
  | case1 => cases h
  | case2 before r c rest hr h1 =>
    cases h
    exact (readsMarkup_skipBlanks r).trans (readsMarkup_sign h1 (by simp) (by decide))
  | case3 before r c rest hr h1 h2 =>
    cases h
    exact (readsMarkup_skipBlanks r).trans (readsMarkup_sign h2 (by simp) (by decide))
  | case4 => cases h
  | case5 before r c rest hr h1 h2 t u ha ih =>
    exact ((readsMarkup_skipBlanks r).trans (reads_readAttribute ha).1).trans (ih h)

/-- The attributes of a tag are read the same whatever follows its closing sign. -/
theorem readAttributes_onto {before as : List Attribute} {closed : Bool}
    (h : readAttributes before r = .ok (as, closed, s)) : ∃ a, r.rest = a ++ '>' :: s.rest ∧
      ∀ y, Quiet s.tokens s.rest y →
        readAttributes before (r.onto (a ++ '>' :: y)) = .ok (as, closed, s.onto y) := by
  fun_induction readAttributes before r with
  | case1 => cases h
  | case2 before r c rest hr h1 =>
    cases h
    obtain ⟨tail, htail⟩ := List.isPrefixOf_iff_prefix.mp h1
    obtain ⟨hrest, hemit⟩ := emit_sign .punctuator htail.symm
    have hr₀ : r.skipBlanks.rest = ['/'] ++ '>' :: tail := htail.symm
    obtain ⟨b, hb, hskip⟩ := skipBlanks_before rfl hr₀
    refine ⟨b, hb.trans (by rw [← hrest]; rfl), fun y _ => ?_⟩
    have hr' : (r.onto (b ++ '>' :: y)).skipBlanks.rest = '/' :: ('>' :: y) := by
      rw [hskip]
      rfl
    have hsign : (r.onto (b ++ '>' :: y)).skipBlanks.startsWith ['/', '>'] = true := by
      simp [startsWith, hr']
    rw [readAttributes_cons _ hr', if_pos hsign, hskip]
    exact congrArg (fun u => Except.ok (_, true, u)) (hemit y)
  | case3 before r c rest hr h1 h2 =>
    cases h
    obtain ⟨tail, htail⟩ := List.isPrefixOf_iff_prefix.mp h2
    obtain ⟨hrest, hemit⟩ := emit_sign .punctuator htail.symm
    have hr₀ : r.skipBlanks.rest = [] ++ '>' :: tail := htail.symm
    obtain ⟨b, hb, hskip⟩ := skipBlanks_before rfl hr₀
    refine ⟨b, hb.trans (by rw [← hrest]; rfl), fun y _ => ?_⟩
    have hr' : (r.onto (b ++ '>' :: y)).skipBlanks.rest = '>' :: y := by
      rw [hskip]
      rfl
    have hclosed : (r.onto (b ++ '>' :: y)).skipBlanks.startsWith ['/', '>'] = false := by
      rw [startsWith, hr']
      rfl
    have hsign : (r.onto (b ++ '>' :: y)).skipBlanks.startsWith ['>'] = true := by
      simp [startsWith, hr']
    rw [readAttributes_cons _ hr', if_neg (by simp [hclosed]), if_pos hsign, hskip]
    exact congrArg (fun u => Except.ok (_, false, u)) (hemit y)
  | case4 => cases h
  | case5 before r c rest hr h1 h2 t u ha ih =>
    obtain ⟨a, hrest, hall⟩ := ih h
    obtain ⟨b, hb, hattribute⟩ := readAttribute_before ha hrest
    obtain ⟨b', hb', hskip⟩ := skipBlanks_before rfl hb
    refine ⟨b', hb', fun y hy => ?_⟩
    obtain ⟨c', rest', hr'⟩ :
        ∃ c' rest', (r.onto (b' ++ '>' :: y)).skipBlanks.rest = c' :: rest' := by
      rw [hskip, onto_rest]
      exact List.exists_cons_of_ne_nil (by simp)
    have hquiet := hy.mono (readsMarkup_readAttributes h).extends
    rw [readAttributes_cons _ hr', hskip, startsWith_before (by decide) hb, if_neg h1,
      startsWith_before (by decide) hb, if_neg h2]
    exact bind_eq_ok.mpr ⟨_, hattribute y hquiet, hall y hy⟩

/-- **A start tag is read the same** whatever follows it. -/
theorem readStartTag_onto {tag : StartTag} {name : List Char}
    (h : readStartTag r = .ok (tag, name, s)) : ∃ a, r.rest = a ++ '>' :: s.rest ∧
      ∀ y, Quiet s.tokens s.rest y →
        readStartTag (r.onto (a ++ '>' :: y)) = .ok (tag, name, s.onto y) := by
  obtain ⟨⟨as, closed, t⟩, h1, h⟩ := bind_eq_ok.mp h
  cases h
  obtain ⟨a, ha, hall⟩ := readAttributes_onto h1
  obtain ⟨b, hb, hemit⟩ := emit_before ha
  obtain ⟨b', hb', hsign⟩ := emit_before hb
  refine ⟨b', hb', fun y hy => ?_⟩
  have hname : (b ++ '>' :: y).take (tagNameLength (b ++ '>' :: y)) =
      (r.emit .punctuator 1).rest.take (tagNameLength (r.emit .punctuator 1).rest) := by
    rw [hb]
    exact stops_tagName (by decide) (by decide) b y s.rest
  simp only [readStartTag, hsign, onto_rest, hname, hemit]
  exact bind_eq_ok.mpr ⟨_, hall y hy, rfl⟩

/-- **An end tag is read the same** whatever follows it. -/
theorem readEndTag_onto {name : List Char} {tag : EndTag} (h : readEndTag name r = .ok (tag, s)) :
    ∃ a, r.rest = a ++ '>' :: s.rest ∧
      ∀ y, readEndTag name (r.onto (a ++ '>' :: y)) = .ok (tag, s.onto y) := by
  unfold readEndTag at h
  simp only at h
  split at h
  · cases h
  next hname =>
  split at h
  · next hsign =>
    cases h
    obtain ⟨tail, htail⟩ := List.isPrefixOf_iff_prefix.mp hsign
    have hclosed := htail.symm
    obtain ⟨b1, hb1, hskip1⟩ := skipBlanks_before (a := []) rfl hclosed
    obtain ⟨b2, hb2, hemit2⟩ := emit_before hb1
    obtain ⟨b3, hb3, hskip3⟩ := skipBlanks_before rfl hb2
    obtain ⟨b4, hb4, hemit4⟩ := emit_before hb3
    obtain ⟨hlast, hemit⟩ := emit_sign .punctuator hclosed
    refine ⟨b4, hb4.trans (by rw [← hlast]; rfl), fun y => ?_⟩
    have hlen : tagNameLength (b2 ++ '>' :: y) =
        tagNameLength (r.emit .punctuator 2).skipBlanks.rest := by
      rw [hb2]
      exact stops_tagNameLength (by decide) (by decide) b2 y tail
    have hword : (b2 ++ '>' :: y).take (tagNameLength (b2 ++ '>' :: y)) = name := by
      rw [← not_not.mp hname, hb2]
      exact stops_tagName (by decide) (by decide) b2 y tail
    rw [readEndTag]
    simp only [hemit4, hskip3, onto_rest]
    rw [if_neg (not_not.mpr hword), hlen, hemit2, hskip1]
    refine (if_pos rfl).trans ?_
    exact congrArg (fun u => Except.ok (EndTag.mk r.next u.last, u)) (hemit y)
  · cases h

end Reading

end MarkupIndent.Markup
