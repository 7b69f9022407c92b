import MarkupIndent.Proofs.LineHeads
import MarkupIndent.Proofs.Regrown

/-!
# Tokens of a mended document

When margins before line heads are mended, every token keeps its line and its distance from other
tokens of the line. A significant token keeps its text too, unless an edit begins right where the
token ends: blanks that are put there become part of the token.

* `LineStart`: what stands before a place on its line, and before the same place when margins are
  mended.
* `HeadEdits`: edits of the margins before line heads; `HeadEdits.Clear`: none of them begins where
  a significant token ends.
* `text_kin`: what becomes of the text of a significant token.
* `isBlank_kin`, `line_kin`, `column_kin`, `endLine_kin`: what tokens of each other have in common.
* `Remargined`: a document and what becomes of it; `Remargined.leads`: if edits are clear, it has
  the same line heads.
-/

namespace MarkupIndent.Margin

open Markup Text

/-! ## Beginnings of lines -/

theorem count_reindented {a b : List Char} (h : Reindented a b) : a.count '\n' = b.count '\n' := by
  induction h with
  | nil => rfl
  | char hc _ ih => rw [List.count_cons_of_ne hc, List.count_cons_of_ne hc, ih]
  | line hv hw _ ih =>
    rw [List.count_cons_self, List.count_cons_self, List.count_append, List.count_append, ih,
      List.count_eq_zero.mpr hv.newline_not_mem, List.count_eq_zero.mpr hw.newline_not_mem]

/-- What stands on a line that begins at an offset, up to some place, and what becomes of it: its
margin is replaced if there is an edit of it. -/
inductive LineStart (es : List Edit) (o : Int) : List Char → List Char → Prop
  | kept {line : List Char} : (∀ e ∈ es, e.start ≠ o) → LineStart es o line line
  | edited {e : Edit} {w line : List Char} : e ∈ es → e.start = o → e.stop = o + w.length →
      Margin w → Margin e.text → LineStart es o (w ++ line) (e.text ++ line)

/-- **Mending works on the last line** of a text as on all the others. -/
theorem lineStart_mended {es : List Edit} {o : Int} {a b : List Char} (h : Mended es o a b) :
    ('\n' ∉ a ∧ a = b) ∨ ('\n' ∈ a ∧
      LineStart es (o + a.length - (lastLine a).length) (lastLine a) (lastLine b)) := by
  induction h with
  | nil => exact .inl ⟨by simp, rfl⟩
  | @char o c a b hc h ih =>
    have hb : '\n' ∈ a ↔ '\n' ∈ b := by
      rw [← List.count_pos_iff, ← List.count_pos_iff, count_reindented h.reindented]
    rcases ih with ⟨h1, rfl⟩ | ⟨h1, h2⟩
    · exact .inl ⟨by simp [h1, Ne.symm hc], rfl⟩
    · refine .inr ⟨List.mem_cons_of_mem c h1, ?_⟩
      rw [show lastLine (c :: a) = lastLine a from lastLine_append_of_mem (a := [c]) h1,
        show lastLine (c :: b) = lastLine b from lastLine_append_of_mem (a := [c]) (hb.mp h1)]
      convert h2 using 1
      rw [List.length_cons]
      omega
  | @line o a b hn h ih =>
    refine .inr ⟨List.mem_cons_self, ?_⟩
    rw [lastLine_newline_cons, lastLine_newline_cons, List.length_cons]
    rcases ih with ⟨h1, rfl⟩ | ⟨-, h2⟩
    · rw [lastLine_of_not_mem h1]
      exact .kept fun e he => by have := hn e he; omega
    · convert h2 using 1
      omega
  | @mend o e w a b he h1 h2 hw ht h ih =>
    refine .inr ⟨List.mem_cons_self, ?_⟩
    rw [lastLine_newline_cons, lastLine_newline_cons, List.length_cons]
    rcases ih with ⟨h3, rfl⟩ | ⟨h3, h4⟩
    · rw [lastLine_of_not_mem (by simp [h3, hw.newline_not_mem]),
        lastLine_of_not_mem (by simp [h3, ht.newline_not_mem])]
      exact .edited he (by omega) (by omega) hw ht
    · have hb : '\n' ∈ b := by
        rwa [← List.count_pos_iff, ← count_reindented h.reindented, List.count_pos_iff]
      rw [lastLine_append_of_mem h3, lastLine_append_of_mem hb]
      convert h4 using 1
      rw [List.length_append]
      omega

/-- Where no edit begins before the end of a text, only the end may change: if the text ends with a
line end and an edit begins there, the blanks of the edit are put behind it. -/
theorem mended_at_end {es : List Edit} {o : Int} {a b : List Char} (h : Mended es o a b)
    (hno : ∀ e ∈ es, ¬ (o < e.start ∧ e.start < o + a.length)) :
    (b = a ∧ ∀ x, a = x ++ ['\n'] → ∀ e ∈ es, e.start ≠ o + a.length) ∨
      ∃ e ∈ es, e.start = o + a.length ∧ b = a ++ e.text ∧ ∃ x, a = x ++ ['\n'] := by
  induction h with
  | nil => exact .inl ⟨rfl, by simp⟩
  | @char o c a b hc h ih =>
    rw [List.length_cons] at hno ⊢
    rcases ih fun e he => by have := hno e he; omega with ⟨rfl, hend⟩ | ⟨e, he, h1, rfl, x, rfl⟩
    · refine .inl ⟨rfl, fun x hx e he => ?_⟩
      cases x with
      | nil => exact absurd (List.cons.inj hx).1 hc
      | cons d x =>
        have := hend x (List.cons.inj hx).2 e he
        omega
    · exact .inr ⟨e, he, by omega, rfl, c :: x, rfl⟩
  | @line o a b hn h ih =>
    rw [List.length_cons] at hno ⊢
    rcases ih fun e he => by have := hno e he; omega with ⟨rfl, hend⟩ | ⟨e, he, h1, rfl, x, rfl⟩
    · refine .inl ⟨rfl, fun x hx e he => ?_⟩
      cases x with
      | nil =>
        obtain rfl : b = [] := (List.cons.inj hx).2
        have := hn e he
        rw [List.length_nil]
        omega
      | cons d x =>
        have := hend x (List.cons.inj hx).2 e he
        omega
    · exact .inr ⟨e, he, by omega, rfl, '\n' :: x, rfl⟩
  | @mend o e w a b he h1 h2 hw ht h ih =>
    have := hno e he
    rw [List.length_cons, List.length_append] at this
    obtain rfl : w = [] := List.length_eq_zero_iff.mp (by omega)
    obtain rfl : a = [] := List.length_eq_zero_iff.mp (by omega)
    obtain rfl := h.nil_iff.mp rfl
    exact .inr ⟨e, he, by simpa using h1, by simp, [], rfl⟩

/-- How a text that begins with a line end is mended. -/
theorem mended_newline {es : List Edit} {o : Int} {a b : List Char}
    (h : Mended es o ('\n' :: a) b) :
    (∃ b', b = '\n' :: b' ∧ (∀ e ∈ es, e.start ≠ o + 1) ∧ Mended es (o + 1) a b') ∨
      ∃ e ∈ es, ∃ w a' b', a = w ++ a' ∧ b = '\n' :: (e.text ++ b') ∧ e.start = o + 1 ∧
        e.stop = o + 1 + w.length ∧ Mended es (o + 1 + w.length) a' b' := by
  cases h with
  | char hc => exact absurd rfl hc
  | line hn h => exact .inl ⟨_, rfl, hn, h⟩
  | mend he h1 h2 _ _ h => exact .inr ⟨_, he, _, _, _, rfl, rfl, h1, h2, h⟩

/-- What follows mended texts is mended too, if no two edits begin at the same place. -/
theorem mended_of_append {es : List Edit} (hes : ∀ a ∈ es, ∀ b ∈ es, a.start = b.start → a = b)
    {o : Int} {a b x y : List Char} (h : Mended es o a b) (hall : Mended es o (a ++ x) (b ++ y)) :
    Mended es (o + a.length) x y := by
  induction h with
  | nil => simpa using hall
  | @char o c a b hc _ ih =>
    have hrest : Mended es (o + 1) (a ++ x) (b ++ y) := by
      rw [List.cons_append, List.cons_append] at hall
      generalize a ++ x = s at hall ⊢
      generalize b ++ y = t at hall ⊢
      cases hall with
      | char _ hall => exact hall
      | line | mend => exact absurd rfl hc
    rw [List.length_cons]
    convert ih hrest using 1
    omega
  | @line o a b hn _ ih =>
    have hrest : Mended es (o + 1) (a ++ x) (b ++ y) := by
      rw [List.cons_append, List.cons_append] at hall
      rcases mended_newline hall with ⟨t, ht, -, hall⟩ | ⟨e, he, -, -, -, -, -, hstart, -⟩
      · rwa [(List.cons.inj ht).2]
      · exact absurd hstart (hn e he)
    rw [List.length_cons]
    convert ih hrest using 1
    omega
  | @mend o e w a b he hstart hstop _ _ _ ih =>
    have hrest : Mended es (o + 1 + w.length) (a ++ x) (b ++ y) := by
      rw [List.cons_append, List.cons_append, List.append_assoc, List.append_assoc] at hall
      rcases mended_newline hall with ⟨-, -, hn, -⟩ |
        ⟨f, hf, v, c, d, hc, hd, hfstart, hfstop, hall⟩
      · exact absurd hstart (hn e he)
      · obtain rfl := hes e he f hf (hstart.trans hfstart.symm)
        obtain ⟨rfl, rfl⟩ := List.append_inj hc (by omega)
        rwa [List.append_cancel_left (List.cons.inj hd).2]
    rw [List.length_cons, List.length_append]
    convert ih hrest using 1
    omega

/-! ## Edits of the margins before line heads -/

/-- Edits of the margins before line heads, at most one for each, by spaces and tabs. -/
structure HeadEdits (d : Document) (es : List Edit) : Prop where
  head : ∀ e ∈ es, ∃ (i : Nat) (h : Token), d.tokens[i]? = some h ∧ Leads d.tokens.toList i ∧
    e.stop = h.start ∧ e.stop - e.start = h.column
  blanks : ∀ e ∈ es, ∀ c ∈ e.text, c = ' ' ∨ c = '\t'
  unique : ∀ a ∈ es, ∀ b ∈ es, a.start = b.start → a = b

/-- No edit puts blanks right where a significant token ends. -/
def Clear (d : Document) (es : List Edit) : Prop :=
  ∀ e ∈ es, e.text ≠ [] → ∀ (i : Nat) (t : Token), d.tokens[i]? = some t → t.isBlank = false →
    e.start ≠ t.stop

/-- A line begins where the last line of the text before a place does. -/
theorem count_take_lastLine (text : List Char) (n : Nat) (hn : n ≤ text.length) :
    (text.take (n - (lastLine (text.take n)).length)).count '\n' = (text.take n).count '\n' := by
  obtain ⟨before, hsplit, -⟩ := exists_eq_append_lastLine (text.take n)
  have hnot := newline_not_mem_lastLine (text.take n)
  have hlen := congrArg List.length hsplit
  rw [List.length_append, List.length_take, Nat.min_eq_left hn] at hlen
  have htake : text.take (n - (lastLine (text.take n)).length) = before := by
    have := congrArg (List.take before.length) hsplit
    rw [List.take_take, Nat.min_eq_left (by omega), List.take_left' rfl] at this
    rwa [show n - (lastLine (text.take n)).length = before.length by omega]
  have hcount := congrArg (List.count '\n') hsplit
  rw [List.count_append, List.count_eq_zero.mpr hnot, Nat.add_zero] at hcount
  rw [htake, hcount]

section Kin

variable {es : List Edit} {k : Nat} {d d' : Document}
  (htok : Tokenized d.text d.text.length d.tokens)
  (htok' : Tokenized d'.text d'.text.length d'.tokens)

include htok in
/-- **No edit begins inside a significant token.** -/
theorem HeadEdits.not_within (hes : HeadEdits d es) {i : Nat} {t : Token}
    (ht : d.tokens[i]? = some t) (hb : t.isBlank = false) :
    ∀ e ∈ es, ¬ ((t.start : Int) < e.start ∧ e.start < t.stop) := by
  rintro e he ⟨h1, h2⟩
  obtain ⟨j, h, hj, hlead, hstop, hwidth⟩ := hes.head e he
  have hat := htok.token i t ht
  have hah := htok.token j h hj
  have hlt := hat.lt
  have hle := hah.lt
  have hlen := hah.le
  -- The head comes after the token, which reaches its line.
  have hij : i < j := by
    rcases Nat.lt_trichotomy i j with hlt | rfl | hgt
    · exact hlt
    · rw [ht] at hj
      cases hj
      omega
    · have := htok.ordered j i h t hgt hj ht
      omega
  obtain ⟨u, hu, -, hall⟩ := hlead
  rw [Array.getElem?_toList, hj] at hu
  cases hu
  have hbefore := hall i t hij (by rw [Array.getElem?_toList, ht]) hb
  have hcover := line_le_endLine_of_covers hat (o := e.start.toNat) (by omega)
  have hline := count_take_lastLine d.text h.start (by omega)
  rw [← hah.column, show h.start - h.column = e.start.toNat by omega] at hline
  rw [hah.line] at hbefore
  omega

include htok in
/-- A token that ends where an edit begins ends with a line end. -/
theorem HeadEdits.ends_of_start (hes : HeadEdits d es) {e : Edit} (he : e ∈ es) {i : Nat}
    {t : Token} (ht : d.tokens[i]? = some t) (hstart : e.start = t.stop) : ∃ x, t.text = x ++ ['\n'] := by
  obtain ⟨j, u, hu, -, hstop, hwidth⟩ := hes.head e he
  have hat := htok.token i t ht
  have hau := htok.token j u hu
  have hlt := hat.lt
  have hult := hau.lt
  have hulen := hau.le
  obtain ⟨before, hsplit, hbefore⟩ := exists_eq_append_lastLine (d.text.take u.start)
  have hlength := congrArg List.length hsplit
  rw [List.length_append, List.length_take, ← hau.column] at hlength
  have htake : d.text.take t.stop = before := by
    have := congrArg (List.take t.stop) hsplit
    rwa [List.take_take, Nat.min_eq_left (by omega), List.take_left' (by omega)] at this
  have htext : d.text.take t.stop = d.text.take t.start ++ t.text := by
    rw [hat.slice, ← List.take_add, Nat.add_sub_cancel' (Nat.le_of_lt hlt)]
  refine eq_append_newline (a := d.text.take t.start) ?_ hat.admits.ne_nil
  rw [← htext, htake]
  rcases hbefore with rfl | ⟨a, rfl⟩ <;> simp

section Token

variable {i j : Nat} {t t' : Token} (ht : d.tokens[i]? = some t) (ht' : d'.tokens[j]? = some t')
  (hkin : Kin es d.text d'.text t t')
include htok ht hkin

include htok' ht' in
/-- Tokens of each other stand on the same line. -/
theorem line_kin : t.line = t'.line := by
  have := count_reindented hkin.start.reindented
  rw [List.count_cons_self, List.count_cons_self] at this
  rw [(htok.token i t ht).line, (htok'.token j t' ht').line, Nat.add_right_cancel this]

/-- **A significant token keeps its text**, unless an edit puts blanks right after it. -/
theorem text_kin (hes : HeadEdits d es) (hb : t.isBlank = false) :
    (t'.text = t.text ∧ ∀ x, t.text = x ++ ['\n'] → ∀ e ∈ es, e.start ≠ t.stop) ∨
      ∃ e ∈ es, e.start = t.stop ∧ t'.text = t.text ++ e.text ∧ ∃ x, t.text = x ++ ['\n'] := by
  have hat := htok.token i t ht
  have hlt := hat.lt
  have hle := hat.le
  have hlen : ((t.start : Int) + t.text.length) = t.stop := by
    rw [hat.slice, List.length_take, List.length_drop]
    omega
  have := mended_at_end hkin.slice (by rw [hlen]; exact hes.not_within htok ht hb)
  rwa [hlen] at this

/-- A token of markup keeps its text. -/
theorem text_kin_of_ne (hes : HeadEdits d es) (hk : t.kind ≠ .htmlText) : t'.text = t.text := by
  rcases text_kin htok ht hkin hes (by simp [Token.isBlank, hk]) with
    ⟨h, -⟩ | ⟨e, -, -, -, x, hx⟩
  · exact h
  · obtain ⟨-, c, hc, hcb⟩ := (htok.token i t ht).admits.solid hk
    rw [hx, List.getLast?_append, List.getLast?_singleton, Option.some_or] at hc
    rw [← Option.some.inj hc, isBlank_newline] at hcb
    cases hcb

/-- **A token is blank if its partner is.** -/
theorem isBlank_kin (hes : HeadEdits d es) : t.isBlank = t'.isBlank := by
  by_cases hb : t.isBlank = true
  · rw [hb]
    unfold Token.isBlank at hb ⊢
    rw [Bool.and_eq_true, List.all_eq_true] at hb
    rw [← hkin.kind, hb.1, Bool.true_and, eq_comm, List.all_eq_true]
    refine forall_mem_mended hkin.slice hb.2 fun e he c hc => ?_
    rcases hes.blanks e he c hc with rfl | rfl <;> rfl
  · have hb : t.isBlank = false := by simpa using hb
    have hsub : ∀ c ∈ t.text, c ∈ t'.text := by
      intro c hc
      rcases text_kin htok ht hkin hes hb with ⟨h, -⟩ | ⟨e, -, -, h, -⟩ <;> rw [h]
      · exact hc
      · exact List.mem_append_left _ hc
    rw [hb, eq_comm, Bool.eq_false_iff]
    intro hb'
    unfold Token.isBlank at hb hb'
    rw [Bool.and_eq_true, List.all_eq_true, ← hkin.kind] at hb'
    rw [hb'.1, Bool.true_and, List.all_eq_false] at hb
    obtain ⟨c, hc, hcb⟩ := hb
    exact hcb (hb'.2 c (hsub c hc))

/-- If edits are clear, a significant token ends on the same line as its partner. -/
theorem endLine_kin (hline : t.line = t'.line) (hes : HeadEdits d es) (hclear : Clear d es)
    (hb : t.isBlank = false) : t.endLine = t'.endLine := by
  rcases text_kin htok ht hkin hes hb with ⟨h, -⟩ | ⟨e, he, hstart, h, -⟩
  · rw [Token.endLine, Token.endLine, h, hline]
  · have hnil : e.text = [] := by
      by_contra hne
      exact hclear e he hne i t ht hb hstart
    rw [Token.endLine, Token.endLine, h, hnil, List.append_nil, hline]

/-- A significant token ends on the same line as its partner or on an earlier one. -/
theorem endLine_le_kin (hline : t.line = t'.line) (hes : HeadEdits d es) (hb : t.isBlank = false) :
    t.endLine ≤ t'.endLine := by
  rcases text_kin htok ht hkin hes hb with ⟨h, -⟩ | ⟨e, -, -, h, -⟩
  · rw [Token.endLine, Token.endLine, h, hline]
  · have hle := (List.dropLast_sublist t.text).count_le '\n'
    rw [Token.endLine, Token.endLine, h, hline]
    by_cases hne : e.text = []
    · rw [hne, List.append_nil]
    · rw [List.dropLast_append_of_ne_nil hne, List.count_append]
      omega

/-- What stands before tokens of each other on their line. -/
theorem lineStart_kin : LineStart es ((t.start : Int) - t.column)
    (lastLine (d.text.take t.start)) (lastLine (d'.text.take t'.start)) := by
  have hat := htok.token i t ht
  have hlt := hat.lt
  have hle := hat.le
  rcases lineStart_mended hkin.start with ⟨h, -⟩ | ⟨-, h⟩
  · exact absurd List.mem_cons_self h
  · rw [lastLine_newline_cons, lastLine_newline_cons, List.length_cons, List.length_take] at h
    rw [hat.column]
    convert h using 1
    omega

end Token

/-- The tokens of a line tell where the line begins. -/
theorem start_sub_column {text : List Char} {i j : Nat} {t u : Token} (ht : TokenAt text i t)
    (hu : TokenAt text j u) (h : t.line = u.line) :
    (t.start : Int) - t.column = u.start - u.column := by
  have ht' := line?_of_tokenAt ht
  rw [h, line?_of_tokenAt hu] at ht'
  have hoff := congrArg Line.start (Option.some.inj ht')
  simp only at hoff
  have h1 := length_lastLine_le (text.take t.start)
  have h2 := length_lastLine_le (text.take u.start)
  rw [List.length_take] at h1 h2
  rw [ht.column, hu.column]
  omega

include htok htok' in
/-- **Tokens of a line keep their distance.** -/
theorem column_kin (hes : HeadEdits d es) {i j i' j' : Nat} {t t' u u' : Token}
    (ht : d.tokens[i]? = some t) (hu : d.tokens[j]? = some u) (ht' : d'.tokens[i']? = some t')
    (hu' : d'.tokens[j']? = some u') (hkt : Kin es d.text d'.text t t')
    (hku : Kin es d.text d'.text u u') (hline : t.line = u.line) :
    (t.column : Int) - u.column = t'.column - u'.column := by
  have h1 := lineStart_kin htok ht hkt
  have h2 := lineStart_kin htok hu hku
  rw [start_sub_column (htok.token i t ht) (htok.token j u hu) hline] at h1
  rw [(htok.token i t ht).column, (htok.token j u hu).column, (htok'.token i' t' ht').column,
    (htok'.token j' u' hu').column]
  generalize lastLine (d.text.take t.start) = a at h1 ⊢
  generalize lastLine (d'.text.take t'.start) = a' at h1 ⊢
  generalize lastLine (d.text.take u.start) = b at h2 ⊢
  generalize lastLine (d'.text.take u'.start) = b' at h2 ⊢
  cases h1 with
  | kept hno =>
    cases h2 with
    | kept => rfl
    | edited he hstart => exact absurd hstart (hno _ he)
  | @edited e w line he hstart hstop _ _ =>
    cases h2 with
    | kept hno => exact absurd hstart (hno _ he)
    | @edited e₂ w₂ line₂ he₂ hstart₂ hstop₂ _ _ =>
      obtain rfl := hes.unique e he e₂ he₂ (by rw [hstart, hstart₂])
      simp only [List.length_append]
      omega

include htok in
/-- **The margin before a head is mended if there is an edit of it**, and stays otherwise. -/
theorem margin_kin (hes : HeadEdits d es) {i : Nat} {t t' : Token} (ht : d.tokens[i]? = some t)
    (hkin : Kin es d.text d'.text t t') (hlead : Leads d.tokens.toList i) :
    ((∀ e ∈ es, e.stop ≠ t.start) ∧
      lastLine (d'.text.take t'.start) = lastLine (d.text.take t.start)) ∨
    ∃ e ∈ es, e.stop = t.start ∧ lastLine (d'.text.take t'.start) = e.text := by
  have hx := indexed_of_tokenized htok
  have hat := htok.token i t ht
  have hlt := hat.lt
  have hle := hat.le
  have hstart := lineStart_kin htok ht hkin
  have hlen := hat.column
  generalize hline : lastLine (d.text.take t.start) = line at hstart hlen ⊢
  generalize lastLine (d'.text.take t'.start) = line' at hstart ⊢
  cases hstart with
  | kept hno =>
    refine .inl ⟨fun e he hstop => ?_, rfl⟩
    obtain ⟨j, u, hu, -, hustop, hwidth⟩ := hes.head e he
    have hcolumn := (htok.token j u hu).column
    rw [show u.start = t.start by omega, hline, ← hlen] at hcolumn
    exact hno e he (by omega)
  | @edited e w rest he hestart hestop _ _ =>
    obtain ⟨j, u, hu, hulead, hustop, hwidth⟩ := hes.head e he
    have hau := htok.token j u hu
    have hult := hau.lt
    have hule := hau.le
    have hcu := count_take_lastLine d.text u.start (by omega)
    have hct := count_take_lastLine d.text t.start (by omega)
    rw [← hau.column] at hcu
    rw [← hat.column, show t.start - t.column = u.start - u.column by omega, hcu] at hct
    obtain rfl : u = t := head_unique htok ((mem_lineHeads hx).mpr ⟨j, hu, hulead⟩)
      ((mem_lineHeads hx).mpr ⟨i, ht, hlead⟩) (by rw [hau.line, hat.line, hct])
    refine .inr ⟨e, he, hustop, ?_⟩
    rw [List.length_append] at hlen
    rw [List.length_eq_zero_iff.mp (show rest.length = 0 by omega), List.append_nil]

end Kin

/-! ## Documents with other margins -/

/-- A document, and what becomes of it when margins before its line heads are mended. It may have
`k` more tokens, which are blank, at its beginning. -/
structure Remargined (es : List Edit) (k : Nat) (d d' : Document) : Prop where
  tokens : Tokenized d.text d.text.length d.tokens
  tokens' : Tokenized d'.text d'.text.length d'.tokens
  matched : Matched (Kin es d.text d'.text) k d.tokens d'.tokens
  edits : HeadEdits d es
  first : ∀ (i : Nat) (t : Token), i < k → d.tokens[i]? = some t → t.isBlank = true

/-- Tokens that are the same but for their places and, if they are blank, their blanks. -/
structure Counterpart (t t' : Token) : Prop extends SameLines t t' where
  kind : t.kind = t'.kind
  text : t.kind ≠ .htmlText → t.text = t'.text

namespace Remargined

variable {es : List Edit} {k : Nat} {d d' : Document} (h : Remargined es k d d')
include h

theorem indexed : Indexed d.tokens := indexed_of_tokenized h.tokens

theorem indexed' : Indexed d'.tokens := indexed_of_tokenized h.tokens'

theorem counterparts (hclear : Clear d es) : Matched Counterpart k d.tokens d'.tokens where
  size := h.matched.size
  token i t' ht' := by
    obtain ⟨t, ht, hkin⟩ := h.matched.token i t' ht'
    have hline := line_kin h.tokens h.tokens' ht ht' hkin
    exact ⟨t, ht, ⟨isBlank_kin h.tokens ht hkin h.edits, hline,
      endLine_kin h.tokens ht hkin hline h.edits hclear⟩, hkin.kind,
      fun hk => (text_kin_of_ne h.tokens ht hkin h.edits hk).symm⟩

/-- **If edits are clear, the line heads are the same.** -/
theorem leads (hclear : Clear d es) (i : Nat) :
    Leads d.tokens.toList (i + k) ↔ Leads d'.tokens.toList i := by
  refine leads_matched ⟨h.matched.size, fun i t' ht' => ?_⟩ h.first i
  obtain ⟨t, ht, hsame⟩ := (h.counterparts hclear).token i t' ht'
  exact ⟨t, ht, hsame.toSameLines⟩

/-- A line head was one before, whether edits are clear or not. -/
theorem leads_of {i : Nat} (hlead : Leads d'.tokens.toList i) : Leads d.tokens.toList (i + k) := by
  obtain ⟨t', ht', hb', hall⟩ := hlead
  rw [Array.getElem?_toList] at ht'
  obtain ⟨t, ht, hkin⟩ := h.matched.token i t' ht'
  refine ⟨t, by rwa [Array.getElem?_toList], by rw [isBlank_kin h.tokens ht hkin h.edits, hb'],
    fun j u hj hu hb => ?_⟩
  rw [Array.getElem?_toList] at hu
  obtain ⟨j, rfl⟩ : ∃ n, j = n + k := ⟨j - k, by
    by_contra
    have := h.first j u (by omega) hu
    rw [hb] at this
    cases this⟩
  obtain ⟨u', hu', hukin⟩ := h.matched.of_first hu
  have hline := line_kin h.tokens h.tokens' ht ht' hkin
  have huline := line_kin h.tokens h.tokens' hu hu' hukin
  have hle := endLine_le_kin h.tokens hu hukin huline h.edits hb
  have := hall j u' (by omega) (by rwa [Array.getElem?_toList])
    (by rw [← isBlank_kin h.tokens hu hukin h.edits, hb])
  omega

/-- **An edit that is not clear takes a line its head**: what it puts before the head of a line
becomes part of a token of an earlier line. -/
theorem not_clear (hclear : ¬ Clear d es) : ∃ e ∈ es, ∃ i t, d.tokens[i]? = some t ∧
    e.stop = t.start ∧ Leads d.tokens.toList i ∧ ∀ j t', d'.tokens[j]? = some t' →
      t'.line = t.line → ¬ Leads d'.tokens.toList j := by
  simp only [Clear, not_forall, not_not] at hclear
  obtain ⟨e, he, hne, i, t, ht, hb, hstart⟩ := hclear
  obtain ⟨j, u, hu, hlead, hstop, hwidth⟩ := h.edits.head e he
  have hat := h.tokens.token i t ht
  have hau := h.tokens.token j u hu
  have hlt := hat.lt
  have hlen := hat.le
  have hult := hau.lt
  have hulen := hau.le
  have hfirst := h.first i t
  obtain ⟨x, hx⟩ := h.edits.ends_of_start h.tokens he ht hstart
  have htext : d.text.take t.stop = d.text.take t.start ++ t.text := by
    rw [hat.slice, ← List.take_add, Nat.add_sub_cancel' (Nat.le_of_lt hlt)]
  have hline : u.line = t.line + t.text.count '\n' := by
    have := count_take_lastLine d.text u.start (by omega)
    rw [← hau.column, show u.start - u.column = t.stop by omega, htext, List.count_append] at this
    have h1 := hau.line
    have h2 := hat.line
    omega
  have hcount : 0 < t.text.count '\n' := List.count_pos_iff.mpr (by simp [hx])
  -- So the token reaches that line when the edit is carried out.
  obtain ⟨i, rfl⟩ : ∃ n, i = n + k := ⟨i - k, by
    by_contra
    have := hfirst (by omega) ht
    rw [hb] at this
    cases this⟩
  obtain ⟨t', ht', hkin⟩ := h.matched.of_first ht
  have hline' := line_kin h.tokens h.tokens' ht ht' hkin
  have hreach : u.line ≤ t'.endLine := by
    rcases text_kin h.tokens ht hkin h.edits hb with ⟨-, hend⟩ | ⟨f, hf, hfstart, htext', -⟩
    · exact absurd hstart (hend x hx e he)
    · obtain rfl := h.edits.unique f hf e he (hfstart.trans hstart.symm)
      rw [Token.endLine, htext', List.dropLast_append_of_ne_nil hne, List.count_append]
      omega
  refine ⟨e, he, j, u, hu, hstop, hlead, fun m v' hv' hvline hvlead => ?_⟩
  obtain ⟨w, hw, -, hall⟩ := hvlead
  rw [Array.getElem?_toList, hv'] at hw
  obtain rfl := Option.some.inj hw
  rcases Nat.lt_trichotomy m i with hmi | rfl | hmi
  · obtain ⟨v, hv, hvkin⟩ := h.matched.token m _ hv'
    have hvl := line_kin h.tokens h.tokens' hv hv' hvkin
    have hav := h.tokens.token _ v hv
    have hord := h.tokens.ordered _ _ v t (by omega) hv ht
    have hle := count_take_le d.text (show v.start ≤ t.start by have := hav.lt; omega)
    have h1 := hav.line
    have h2 := hat.line
    omega
  · rw [ht'] at hv'
    obtain rfl := Option.some.inj hv'
    omega
  · have := hall i t' hmi (by rw [Array.getElem?_toList, ht'])
      (isBlank_kin h.tokens ht hkin h.edits ▸ hb)
    omega

end Remargined

end MarkupIndent.Margin
