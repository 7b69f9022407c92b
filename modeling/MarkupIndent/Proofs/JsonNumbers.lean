import Mathlib.Algebra.Group.Nat.Defs
import Mathlib.Data.List.Find
import Mathlib.Data.List.TakeDrop
import Mathlib.Data.List.TakeWhile
import MarkupIndent.Json.Read
import MarkupIndent.Json.Write

/-!
# Numbers and words in JSON

A number or a word ends where a character comes that belongs to neither, so what is read of it does
not hang on the text after it. A whole number of not too many digits is read as it was spelled.

* `isShort_iff`: which numbers have not too many digits.
* `plain_append`: **the text after a number or a word makes no difference**.
* `plain_isPiece`: a number or a word is the beginning of a text, character by character.
* `plain_spellInteger`: a whole number, spelled and read.
* `number_long`: a number of too many digits.
-/

namespace MarkupIndent.Text

/-! ## How many digits a number has -/

/-- A number has at most as many digits as the power of ten that it stays below. -/
theorem length_spellNatural_le {k : Nat} (hk : 0 < k) (n : Nat) :
    (spellNatural n).length ≤ k ↔ n < 10 ^ k := by
  induction k generalizing n with
  | zero => cases hk
  | succ k ih =>
    rw [spellNatural]
    split
    · next h =>
      have hpow : 10 ^ 1 ≤ 10 ^ (k + 1) := Nat.pow_le_pow_right (by decide) (by omega)
      simp only [List.length_singleton]
      omega
    · rw [List.length_append, List.length_singleton, Nat.add_le_add_iff_right]
      cases k with
      | zero =>
        have hpos : 0 < (spellNatural (n / 10)).length := by
          rw [spellNatural]
          split <;> simp
        omega
      | succ k =>
        rw [ih (Nat.succ_pos k), Nat.pow_succ 10 (k + 1)]
        omega

theorem isShort_iff {n : Int} : isShort n = true ↔ n.natAbs < 10 ^ maxDigits := by
  rw [isShort, decide_eq_true_eq, length_spellNatural_le (by decide)]

end MarkupIndent.Text

namespace MarkupIndent.Json

open Text

/-! ## The text after a number or a word -/

/-- The characters that numbers and words are made of. -/
def isInner (c : Char) : Bool :=
  isAsciiLetter c || isAsciiDigit c || c == '.' || c == '+' || c == '-'

/-- What was read, with more text after it. -/
def onto {α : Type} (w : List Char) (x : Except Refusal (α × List Char)) :
    Except Refusal (α × List Char) :=
  x.map fun p => (p.1, p.2 ++ w)

/-- A text begins with something else than a part of a number or a word. -/
def EndsWord (w : List Char) : Prop :=
  ∀ c ∈ w.head?, isInner c = false

/-- A number that begins with no zero has all the digits at the beginning of the text. -/
theorem whole?_eq {text : List Char} (h : ¬ ∃ rest, text = '0' :: rest) :
    whole? text = match spanDigits text with
      | ([], _) => none
      | found => some found := by
  unfold whole?
  split
  · exact absurd ⟨_, rfl⟩ h
  · rfl

section Append

variable {w : List Char} (hw : EndsWord w)
include hw

/-- No number goes on in the text after it. -/
theorem spanDigits_append (text : List Char) :
    spanDigits (text ++ w) = ((spanDigits text).1, (spanDigits text).2 ++ w) := by
  simp only [spanDigits, List.span_eq_takeWhile_dropWhile]
  induction text with
  | nil =>
    cases w with
    | nil => rfl
    | cons c w =>
      have hc : isAsciiDigit c = false := by
        have := hw c rfl
        simp only [isInner, Bool.or_eq_false_iff] at this
        exact this.1.1.1.2
      simp [hc]
  | cons c rest ih =>
    cases hc : isAsciiDigit c with
    | false => simp [hc]
    | true => simpa [hc] using ih

theorem whole?_append (text : List Char) :
    whole? (text ++ w) = (whole? text).map fun p => (p.1, p.2 ++ w) := by
  have hspan := spanDigits_append hw text
  by_cases hzero : ∃ rest, text = '0' :: rest
  · obtain ⟨rest, rfl⟩ := hzero
    rfl
  · have hzero' : ¬ ∃ rest, text ++ w = '0' :: rest := by
      rintro ⟨rest, heq⟩
      cases text with
      | nil => exact absurd (hw '0' (by rw [← List.nil_append w, heq]; rfl)) (by decide)
      | cons c text => exact hzero ⟨text, by rw [(List.cons.inj heq).1]⟩
    rw [whole?_eq hzero', whole?_eq hzero, hspan]
    cases spanDigits text with
    | mk digits rest => cases digits <;> rfl

theorem fraction_append (text : List Char) :
    fraction (text ++ w) = ((fraction text).1, (fraction text).2 ++ w) := by
  cases text with
  | nil =>
    cases w with
    | nil => rfl
    | cons c w =>
      have hc : c ≠ '.' := by
        rintro rfl
        exact absurd (hw '.' rfl) (by decide)
      simp [fraction, hc]
  | cons c rest =>
    by_cases hc : c = '.'
    · subst hc
      have hspan := spanDigits_append hw rest
      simp only [List.cons_append, fraction, hspan]
      cases hfound : spanDigits rest with
      | mk digits more => cases digits <;> rfl
    · simp [fraction, hc]

theorem sign_append (text : List Char) : sign (text ++ w) = ((sign text).1, (sign text).2 ++ w) := by
  cases text with
  | nil =>
    cases w with
    | nil => rfl
    | cons c w =>
      have hc := hw c rfl
      have hplus : c ≠ '+' := by rintro rfl; cases hc
      have hminus : c ≠ '-' := by rintro rfl; cases hc
      simp [sign, hplus, hminus]
  | cons c rest =>
    by_cases hplus : c = '+'
    · subst hplus
      rfl
    · by_cases hminus : c = '-'
      · subst hminus
        rfl
      · simp [sign, hplus, hminus]

theorem exponent_append (text : List Char) :
    exponent (text ++ w) = ((exponent text).1, (exponent text).2 ++ w) := by
  cases text with
  | nil =>
    cases w with
    | nil => rfl
    | cons c w =>
      have hc : (c == 'e' || c == 'E') = false := by
        by_contra h
        simp only [Bool.not_eq_false, Bool.or_eq_true, beq_iff_eq] at h
        rcases h with rfl | rfl <;> exact absurd (hw _ rfl) (by decide)
      simp [exponent, hc]
  | cons c rest =>
    simp only [List.cons_append, exponent]
    split
    · rw [sign_append hw, spanDigits_append hw]
      cases hfound : spanDigits (sign rest).2 with
      | mk digits more => cases digits <;> rfl
    · rfl

theorem number_append (text : List Char) : number (text ++ w) = onto w (number text) := by
  unfold number
  rw [whole?_append hw]
  cases whole? text with
  | none => rfl
  | some found =>
    simp only [Option.map_some, orMalformed, bind, Except.bind, fraction_append hw,
      exponent_append hw]
    split
    · cases natural found.1 <;> rfl
    · rfl

omit hw in
/-- Words are made of the characters of words. -/
theorem isInner_words : ∀ word ∈ words, ∀ c ∈ word.1, isInner c = true := by
  have hall : words.all (fun word => word.1.all isInner) = true := by decide
  simpa only [List.all_eq_true] using hall

/-- A word stands at the beginning of a text as it does with more text after it. -/
theorem isPrefixOf_append {word : List Char} (hword : ∀ c ∈ word, isInner c = true)
    (text : List Char) : word.isPrefixOf (text ++ w) = word.isPrefixOf text := by
  induction word generalizing text with
  | nil => simp
  | cons c word ih =>
    obtain ⟨hc, hword⟩ := List.forall_mem_cons.mp hword
    cases text with
    | nil =>
      cases w with
      | nil => rfl
      | cons d w =>
        have hne : (c == d) = false := by
          rw [beq_eq_false_iff_ne]
          rintro rfl
          rw [hw c rfl] at hc
          cases hc
        simp [List.isPrefixOf, hne]
    | cons d rest => simp [List.isPrefixOf, ih hword]

/-- **What is read of a number or a word does not hang on the text after it.** -/
theorem plain_append (text : List Char) : plain (text ++ w) = onto w (plain text) := by
  have hfind : (words.find? fun word => word.1.isPrefixOf (text ++ w)) =
      words.find? fun word => word.1.isPrefixOf text :=
    List.find?_congr fun word hword => isPrefixOf_append hw (isInner_words word hword) text
  unfold plain
  rw [hfind]
  split
  · next word value hfound =>
    have hprefix : word <+: text := by
      simpa using List.find?_some hfound
    rw [List.drop_append_of_le_length hprefix.length_le]
    rfl
  · cases text with
    | nil =>
      rw [List.nil_append]
      split
      · exact absurd (hw '-' rfl) (by decide)
      · exact number_append hw []
    | cons c rest =>
      by_cases hc : c = '-'
      · subst hc
        simp only [List.cons_append, number_append hw rest]
        cases number rest <;> rfl
      · simp only [List.cons_append]
        split
        · next heq => exact absurd (List.cons.inj heq).1 hc
        · split
          · next heq => exact absurd (List.cons.inj heq).1 hc
          · exact number_append hw (c :: rest)

/-- A text that begins with something else spells no number and no word. -/
theorem plain_malformed : plain w = .error .malformed := plain_append hw []

end Append

/-! ## What is read of a number or a word -/

theorem isInner_digit {c : Char} (h : isAsciiDigit c = true) : isInner c = true := by
  simp [isInner, h]

/-- A piece is read off the beginning of a text, and is made of the characters of numbers. -/
def IsPiece (text : List Char) (piece : List Char × List Char) : Prop :=
  text = piece.1 ++ piece.2 ∧ ∀ c ∈ piece.1, isInner c = true

theorem isPiece_nil (text : List Char) : IsPiece text ([], text) :=
  ⟨rfl, by simp⟩

theorem IsPiece.cons {c : Char} (hc : isInner c = true) {rest : List Char}
    {piece : List Char × List Char} (h : IsPiece rest piece) :
    IsPiece (c :: rest) (c :: piece.1, piece.2) :=
  ⟨by rw [h.1]; rfl, List.forall_mem_cons.mpr ⟨hc, h.2⟩⟩

theorem IsPiece.append {text : List Char} {piece next : List Char × List Char}
    (h : IsPiece text piece) (hnext : IsPiece piece.2 next) :
    IsPiece text (piece.1 ++ next.1, next.2) :=
  ⟨by rw [List.append_assoc, ← hnext.1, ← h.1], List.forall_mem_append.mpr ⟨h.2, hnext.2⟩⟩

theorem spanDigits_isPiece (text : List Char) : IsPiece text (spanDigits text) := by
  rw [spanDigits, List.span_eq_takeWhile_dropWhile]
  exact ⟨List.takeWhile_append_dropWhile.symm, fun c hc => isInner_digit (List.mem_takeWhile_imp hc)⟩

theorem whole?_isPiece {text : List Char} {piece : List Char × List Char}
    (h : whole? text = some piece) : IsPiece text piece ∧ piece.1 ≠ [] := by
  have hspan := spanDigits_isPiece text
  unfold whole? at h
  split at h
  · cases h
    exact ⟨.cons rfl (isPiece_nil _), List.cons_ne_nil _ _⟩
  · split at h
    · cases h
    · next hne =>
      cases h
      refine ⟨hspan, fun hnil => hne (spanDigits text).2 ?_⟩
      rw [← hnil]

theorem fraction_isPiece (text : List Char) : IsPiece text (fraction text) := by
  unfold fraction
  split
  · next rest =>
    have hspan := spanDigits_isPiece rest
    split
    · exact isPiece_nil _
    · next hfound =>
      rw [hfound] at hspan
      exact hspan.cons rfl
  · exact isPiece_nil _

theorem sign_isPiece (text : List Char) : IsPiece text (sign text) := by
  unfold sign
  split
  · exact .cons rfl (isPiece_nil _)
  · exact .cons rfl (isPiece_nil _)
  · exact isPiece_nil _

theorem exponent_isPiece (text : List Char) : IsPiece text (exponent text) := by
  unfold exponent
  split
  · next c rest =>
    split
    · next hc =>
      have hinner : isInner c = true := by
        rw [Bool.or_eq_true, beq_iff_eq, beq_iff_eq] at hc
        rcases hc with rfl | rfl <;> rfl
      have hspan := spanDigits_isPiece (sign rest).2
      simp only
      split
      · exact isPiece_nil _
      · next hfound =>
        rw [hfound] at hspan
        exact ((sign_isPiece rest).append hspan).cons hinner
    · exact isPiece_nil _
  · exact isPiece_nil _

theorem number_isPiece {text rest : List Char} {v : Value} (h : number text = .ok (v, rest)) :
    ∃ word, IsPiece text (word, rest) ∧ word ≠ [] := by
  unfold number at h
  cases hwhole : whole? text with
  | none =>
    rw [hwhole] at h
    cases h
  | some found =>
    obtain ⟨hpiece, hne⟩ := whole?_isPiece hwhole
    have hall := (hpiece.append (fraction_isPiece _)).append (exponent_isPiece _)
    rw [hwhole] at h
    simp only [orMalformed, bind, Except.bind] at h
    have hrest : (exponent (fraction found.2).2).2 = rest := by
      split at h
      · cases hn : natural found.1 with
        | error refusal =>
          rw [hn] at h
          cases h
        | ok n =>
          rw [hn] at h
          cases h
          rfl
      · cases h
        rfl
    rw [hrest] at hall
    exact ⟨_, hall, by simp [hne]⟩

/-- **A number or a word is read off the beginning of a text**, and is made of its characters. -/
theorem plain_isPiece {text rest : List Char} {v : Value} (h : plain text = .ok (v, rest)) :
    ∃ word, IsPiece text (word, rest) ∧ word ≠ [] := by
  unfold plain at h
  split at h
  · next word value hfound =>
    cases h
    have hmem := List.mem_of_find?_eq_some hfound
    have hprefix : word <+: text := by
      simpa using List.find?_some hfound
    have hne : ∀ word ∈ words, word.1 ≠ [] := by decide
    refine ⟨word, ⟨?_, isInner_words _ hmem⟩, hne _ hmem⟩
    obtain ⟨more, rfl⟩ := hprefix
    rw [List.drop_left]
  · split at h
    · next digits _ =>
      cases hnumber : number digits with
      | error refusal =>
        rw [hnumber] at h
        cases h
      | ok found =>
        rw [hnumber] at h
        cases h
        obtain ⟨word, hpiece, -⟩ := number_isPiece hnumber
        exact ⟨_, hpiece.cons rfl, List.cons_ne_nil _ _⟩
    · exact number_isPiece h

/-- What begins like a number or a word is read as one. -/
theorem valueWithin_inner {c : Char} (hc : isInner c = true) (bound : Nat) (text : List Char) :
    valueWithin (bound + 1) (c :: text) = plain (c :: text) := by
  unfold valueWithin
  split
  · next heq =>
    rw [(List.cons.inj heq).1] at hc
    cases hc
  · next heq =>
    rw [(List.cons.inj heq).1] at hc
    cases hc
  · next heq =>
    rw [(List.cons.inj heq).1] at hc
    cases hc
  · rfl

/-! ## Whole numbers -/

theorem isAsciiDigit_ofNat {d : Nat} (h : d < 10) :
    isAsciiDigit (Char.ofNat (0x30 + d)) = true := by
  have key : ∀ d < 10, isAsciiDigit (Char.ofNat (0x30 + d)) = true := by decide
  exact key d h

/-- The digits of a number say which it is. -/
theorem naturalOf_spellNatural (n : Nat) : naturalOf (spellNatural n) = n := by
  have hdigit : ∀ d < 10, (Char.ofNat (0x30 + d)).toNat - 0x30 = d := by decide
  fun_induction spellNatural n with
  | case1 n h => simp [naturalOf, ofDigits, hdigit n h]
  | case2 n h ih =>
    have hlast := hdigit (n % 10) (Nat.mod_lt n (by decide))
    simp only [naturalOf, ofDigits, List.map_append, List.foldl_append, List.map_cons, List.map_nil,
      List.foldl_cons, List.foldl_nil, hlast] at ih ⊢
    omega

theorem isAsciiDigit_spellNatural {n : Nat} {c : Char} (h : c ∈ spellNatural n) :
    isAsciiDigit c = true := by
  fun_induction spellNatural n with
  | case1 n hn =>
    rw [List.mem_singleton.mp h]
    exact isAsciiDigit_ofNat hn
  | case2 n hn ih =>
    rcases List.mem_append.mp h with h | h
    · exact ih h
    · rw [List.mem_singleton.mp h]
      exact isAsciiDigit_ofNat (Nat.mod_lt n (by decide))

theorem isInner_spellInteger {n : Int} {c : Char} (h : c ∈ spellInteger n) : isInner c = true := by
  cases n with
  | ofNat n => exact isInner_digit (isAsciiDigit_spellNatural h)
  | negSucc n =>
    rcases List.mem_cons.mp h with rfl | h
    · rfl
    · exact isInner_digit (isAsciiDigit_spellNatural h)

/-- A number is written with a zero in front only if it is zero. -/
theorem exists_spellNatural (n : Nat) :
    spellNatural n = ['0'] ∨ ∃ c digits, spellNatural n = c :: digits ∧ c ≠ '0' := by
  fun_induction spellNatural n with
  | case1 n h =>
    rcases Nat.eq_zero_or_pos n with rfl | hpos
    · exact .inl rfl
    · refine .inr ⟨_, [], rfl, ?_⟩
      have key : ∀ d < 10, 0 < d → Char.ofNat (0x30 + d) ≠ '0' := by decide
      exact key n h hpos
  | case2 n h ih =>
    right
    rcases ih with hzero | ⟨c, digits, hc, hne⟩
    · -- The digits before the last are those of a number that is not zero.
      have hn := naturalOf_spellNatural (n / 10)
      rw [hzero] at hn
      have : n / 10 = 0 := hn.symm
      omega
    · exact ⟨c, digits ++ _, by rw [hc, List.cons_append], hne⟩

theorem spanDigits_spellNatural (n : Nat) : spanDigits (spellNatural n) = (spellNatural n, []) := by
  have hdigits : ∀ c ∈ spellNatural n, isAsciiDigit c = true := fun c => isAsciiDigit_spellNatural
  rw [spanDigits, List.span_eq_takeWhile_dropWhile, List.takeWhile_eq_self_iff.mpr hdigits,
    List.dropWhile_eq_nil_iff.mpr hdigits]

theorem whole?_spellNatural (n : Nat) : whole? (spellNatural n) = some (spellNatural n, []) := by
  rcases exists_spellNatural n with hzero | ⟨c, digits, hc, hne⟩
  · rw [hzero]
    rfl
  · have hspan := spanDigits_spellNatural n
    rw [hc] at hspan ⊢
    rw [whole?_eq (by rintro ⟨rest, heq⟩; exact hne (List.cons.inj heq).1), hspan]

theorem number_spellNatural {n : Nat} (h : (spellNatural n).length ≤ maxDigits) :
    number (spellNatural n) = .ok (.int n, []) := by
  simp [number, whole?_spellNatural, orMalformed, fraction, exponent, natural, h,
    naturalOf_spellNatural, bind, Except.bind]

theorem number_long {n : Nat} (h : isShort n = false) :
    number (spellNatural n) = .error (.longNumber (spellNatural n).length) := by
  have hlong : ¬ (spellNatural n).length ≤ maxDigits := by simpa [isShort] using h
  simp [number, whole?_spellNatural, orMalformed, fraction, exponent, natural, hlong, bind,
    Except.bind]

theorem exists_digit (n : Nat) :
    ∃ c digits, spellNatural n = c :: digits ∧ isAsciiDigit c = true := by
  rcases exists_spellNatural n with hzero | ⟨c, digits, hc, -⟩
  · exact ⟨'0', [], hzero, rfl⟩
  · exact ⟨c, digits, hc, isAsciiDigit_spellNatural (hc ▸ List.mem_cons_self)⟩

/-- No word begins with a digit. -/
theorem words_head : ∀ word ∈ words, ∃ c rest, word.1 = c :: rest ∧ isAsciiDigit c = false := by
  intro word hword
  simp only [words, List.mem_cons, List.not_mem_nil, or_false] at hword
  rcases hword with rfl | rfl | rfl | rfl | rfl | rfl <;> exact ⟨_, _, rfl, rfl⟩

theorem plain_digit {c : Char} (hc : isAsciiDigit c = true) (text : List Char) :
    plain (c :: text) = number (c :: text) := by
  have hnone : (words.find? fun word => word.1.isPrefixOf (c :: text)) = none := by
    refine List.find?_eq_none.mpr fun word hword hprefix => ?_
    obtain ⟨d, rest, hd, hdigit⟩ := words_head word hword
    obtain ⟨more, hmore⟩ := List.isPrefixOf_iff_prefix.mp hprefix
    rw [hd, List.cons_append] at hmore
    rw [← (List.cons.inj hmore).1, hdigit] at hc
    cases hc
  simp only [plain, hnone]
  split
  · next heq =>
    rw [(List.cons.inj heq).1] at hc
    cases hc
  · rfl

theorem plain_minus {c : Char} (hc : isAsciiDigit c = true) (text : List Char) :
    plain ('-' :: c :: text) = (number (c :: text)).map fun p => (negated p.1, p.2) := by
  have hnone : (words.find? fun word => word.1.isPrefixOf ('-' :: c :: text)) = none := by
    have hI : c ≠ 'I' := by rintro rfl; cases hc
    simp [words, List.isPrefixOf, Ne.symm hI]
  simp only [plain, hnone]

/-- **A whole number is read as it was spelled.** -/
theorem plain_spellInteger {n : Int} (h : isShort n = true) :
    plain (spellInteger n) = .ok (.int n, []) := by
  rw [isShort, decide_eq_true_eq] at h
  cases n with
  | ofNat n =>
    obtain ⟨c, digits, hc, hdigit⟩ := exists_digit n
    have hnumber := number_spellNatural (n := n) h
    rw [hc] at hnumber
    rw [spellInteger, hc, plain_digit hdigit, hnumber]
    rfl
  | negSucc n =>
    obtain ⟨c, digits, hc, hdigit⟩ := exists_digit (n + 1)
    have hnumber := number_spellNatural (n := n + 1) h
    rw [hc] at hnumber
    rw [spellInteger, hc, plain_minus hdigit, hnumber]
    rfl

end MarkupIndent.Json
