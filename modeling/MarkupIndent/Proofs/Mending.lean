import MarkupIndent.Proofs.Lines
import MarkupIndent.Proofs.Reindented
import MarkupIndent.Proofs.Splices

/-!
# Edits of margins

An edit of a margin puts blanks in the place of those at the beginning of a line. Such edits never
get in each other's way: they can be carried out in any order, and what comes of it is the same
text line by line, with other margins where there was an edit.

* `Mended`: a text and what becomes of it, read from left to right.
* `Edit.OnMargin`: an edit that replaces blanks at the beginning of a line.
* `applyEdits_mended`: edits of margins, in any order, can be carried out and mend the text.
* `Mended.splitOn`: what mending does, line by line.
-/

namespace MarkupIndent.Margin

open Text

/-! ## Mended texts -/

/-- A text at an offset, inside a line, and what becomes of it when edits replace the margins of
later lines. -/
inductive Mended (es : List Edit) : Int → List Char → List Char → Prop
  | nil {o : Int} : Mended es o [] []
  | char {o : Int} {c : Char} {a b : List Char} : c ≠ '\n' → Mended es (o + 1) a b →
      Mended es o (c :: a) (c :: b)
  | line {o : Int} {a b : List Char} : (∀ e ∈ es, e.start ≠ o + 1) → Mended es (o + 1) a b →
      Mended es o ('\n' :: a) ('\n' :: b)
  | mend {o : Int} {e : Edit} {w a b : List Char} : e ∈ es → e.start = o + 1 →
      e.stop = o + 1 + w.length → Margin w → Margin e.text → Mended es (o + 1 + w.length) a b →
      Mended es o ('\n' :: (w ++ a)) ('\n' :: (e.text ++ b))

namespace Mended

variable {es : List Edit} {o : Int} {a b : List Char}

/-- Only margins change. -/
theorem reindented (h : Mended es o a b) : Reindented a b := by
  induction h with
  | nil => exact .nil
  | char hc _ ih => exact .char hc ih
  | line _ _ ih => exact .line (v := []) (w := []) margin_nil margin_nil ih
  | mend _ _ _ hw ht _ ih => exact .line hw ht ih

theorem append {a' b' : List Char} (h : Mended es o a b) (h' : Mended es (o + a.length) a' b') :
    Mended es o (a ++ a') (b ++ b') := by
  induction h with
  | nil => simpa using h'
  | char hc _ ih =>
    refine .char hc (ih ?_)
    rw [List.length_cons] at h'
    convert h' using 1
    omega
  | line hn _ ih =>
    refine .line hn (ih ?_)
    rw [List.length_cons] at h'
    convert h' using 1
    omega
  | mend he h1 h2 hw ht _ ih =>
    rw [List.cons_append, List.cons_append, List.append_assoc, List.append_assoc]
    refine .mend he h1 h2 hw ht (ih ?_)
    rw [List.length_cons, List.length_append] at h'
    convert h' using 1
    omega

/-- Where no edit begins, nothing changes. -/
theorem refl (h : ∀ e ∈ es, e.start ≤ o ∨ o + a.length < e.start) : Mended es o a a := by
  induction a generalizing o with
  | nil => exact .nil
  | cons c a ih =>
    rw [List.length_cons] at h
    have hrest : Mended es (o + 1) a a := ih fun e he => by
      rcases h e he with h1 | h1
      · left
        omega
      · right
        omega
    by_cases hc : c = '\n'
    · subst hc
      refine .line (fun e he => ?_) hrest
      rcases h e he with h1 | h1 <;> omega
    · exact .char hc hrest

end Mended

/-- A mended text has no characters but those of the text and of the edits. -/
theorem forall_mem_mended {es : List Edit} {o : Int} {a b : List Char} {P : Char → Prop}
    (h : Mended es o a b) (ha : ∀ c ∈ a, P c) (he : ∀ e ∈ es, ∀ c ∈ e.text, P c) :
    ∀ c ∈ b, P c := by
  induction h with
  | nil => exact ha
  | char _ _ ih | line _ _ ih =>
    simp only [List.mem_cons, forall_eq_or_imp] at ha ⊢
    exact ⟨ha.1, ih ha.2⟩
  | mend hmem _ _ _ _ _ ih =>
    simp only [List.mem_cons, List.mem_append, forall_eq_or_imp] at ha ⊢
    refine ⟨ha.1, fun c hc => ?_⟩
    rcases hc with hc | hc
    · exact he _ hmem c hc
    · exact ih (fun d hd => ha.2 d (.inr hd)) c hc

/-! ## Carrying out edits of margins -/

/-- An edit that replaces blanks at the beginning of a line by spaces and tabs. -/
structure Edit.OnMargin (text : List Char) (e : Edit) : Prop where
  slice : ∃ before w after, text = before ++ (w ++ after) ∧ lastLine before = [] ∧
    e.start = before.length ∧ e.stop = before.length + w.length ∧ Margin w
  blanks : ∀ c ∈ e.text, c = ' ' ∨ c = '\t'

theorem Edit.OnMargin.margin_text {text : List Char} {e : Edit} (h : e.OnMargin text) :
    Margin e.text := by
  intro c hc
  rcases h.blanks c hc with rfl | rfl
  · exact ⟨isBlank_space, by decide⟩
  · exact ⟨isBlank_tab, by decide⟩

/-- Edits of different lines, in the order of the text. -/
def Apart (es : List Edit) : Prop :=
  es.Pairwise fun a b => a.stop < b.start

theorem applyFrom_cons {x kept w after b : List Char} {e : Edit} {edits : List Edit} {limit : Nat}
    (hstart : e.start = (x ++ kept).length) (hstop : e.stop = (x ++ kept ++ w).length)
    (hlimit : (x ++ kept ++ w).length ≤ limit)
    (h : applyFrom limit (x ++ kept ++ w).length after edits = .ok b) :
    applyFrom limit x.length (kept ++ (w ++ after)) (e :: edits) = .ok (kept ++ (e.text ++ b)) := by
  simp only [List.length_append] at hstart hstop hlimit h
  rw [applyFrom_edit (by omega) hstart hstop, h]
  rfl

section Apply

variable {text : List Char} {es : List Edit} (hes : ∀ e ∈ es, e.OnMargin text)
include hes

/-- Edits in order can be carried out on the rest of a text, where those before are done. -/
theorem applyFrom_mended {edits : List Edit} {x rest : List Char} (hx : text = x ++ rest)
    (hsub : ∀ e ∈ edits, e ∈ es) (hdone : ∀ e ∈ es, e ∈ edits ∨ e.start ≤ x.length)
    (hord : Apart edits) (hnext : ∀ e ∈ edits, (x.length : Int) < e.start) :
    ∃ b, applyFrom text.length x.length rest edits = .ok b ∧ Mended es x.length rest b := by
  induction edits generalizing x rest with
  | nil =>
    refine ⟨rest, rfl, Mended.refl fun e he => .inl ?_⟩
    exact (hdone e he).resolve_left (by simp)
  | cons e edits ih =>
    have hm := hes e (hsub e List.mem_cons_self)
    obtain ⟨before, w, after, htext, hlast, hstart, hstop, hw⟩ := hm.slice
    have hxe := hnext e List.mem_cons_self
    -- The rest is kept up to the line end before the edit.
    obtain ⟨kept, hb, hrest⟩ : ∃ kept, before = x ++ kept ∧ rest = kept ++ (w ++ after) := by
      rw [hx] at htext
      rcases List.append_eq_append_iff.mp htext with ⟨k, h1, h2⟩ | ⟨k, h1, h2⟩
      · exact ⟨k, h1, h2⟩
      · have := congrArg List.length h1
        rw [List.length_append] at this
        have hk : k = [] := List.length_eq_zero_iff.mp (by omega)
        subst hk
        exact ⟨[], by simpa using h1.symm, by simpa using h2.symm⟩
    subst hb
    obtain ⟨line, rfl⟩ := eq_append_newline hlast (by
      rintro rfl
      rw [List.append_nil] at hstart
      omega)
    have hstop' : e.stop = (x ++ (line ++ ['\n']) ++ w).length := by
      have hlen : (x ++ (line ++ ['\n']) ++ w).length = (x ++ (line ++ ['\n'])).length + w.length :=
        List.length_append
      omega
    have hafter : text = x ++ (line ++ ['\n']) ++ w ++ after := by
      rw [htext, List.append_assoc _ w]
    have hlimit := congrArg List.length hafter
    rw [List.length_append] at hlimit
    obtain ⟨hfirst, hlater⟩ := List.pairwise_cons.mp hord
    obtain ⟨b, h1, h2⟩ := ih hafter (fun f hf => hsub f (List.mem_cons_of_mem e hf)) (by
      intro f hf
      rcases hdone f hf with h | h
      · rcases List.mem_cons.mp h with rfl | h
        · right
          omega
        · exact .inl h
      · right
        rw [List.append_assoc, List.length_append]
        omega) hlater (fun f hf => by rw [← hstop']; exact hfirst f hf)
    refine ⟨_, hrest ▸ applyFrom_cons hstart hstop' (by omega) h1, ?_⟩
    have hlen : (x ++ (line ++ ['\n'])).length = x.length + line.length + 1 := by
      simp only [List.length_append, List.length_singleton]
      omega
    have hlen' : (x ++ (line ++ ['\n']) ++ w).length = x.length + line.length + 1 + w.length := by
      rw [List.length_append, hlen]
    rw [hrest, List.append_assoc, List.append_assoc]
    refine Mended.append (Mended.refl fun f hf => ?_) ?_
    · rcases hdone f hf with h | h
      · rcases List.mem_cons.mp h with rfl | h
        · right
          omega
        · have := hfirst f h
          right
          omega
      · exact .inl h
    · refine Mended.mend (w := w) (hsub e List.mem_cons_self) (by omega) (by omega) hw
        hm.margin_text ?_
      convert h2 using 1
      omega

omit hes in
theorem pairwise_inOrder (es : List Edit) :
    (inOrder es).Pairwise fun a b => a.start ≤ b.start :=
  (sorted_inOrder es).imp fun h => h.elim Int.le_of_lt fun h => Int.le_of_eq h.1

/-- Edits of different lines are in the order of the text when they are sorted. -/
theorem apart_inOrder (hapart : ∀ a ∈ es, ∀ b ∈ es, a ≠ b → a.stop < b.start ∨ b.stop < a.start)
    (hnodup : es.Nodup) : Apart (inOrder es) := by
  have hperm := perm_inOrder es
  have hle : ∀ e ∈ es, e.start ≤ e.stop := by
    intro e he
    obtain ⟨before, w, after, -, -, h1, h2, -⟩ := (hes e he).slice
    omega
  have hne : (inOrder es).Pairwise fun a b => a ≠ b := hperm.nodup_iff.mpr hnodup
  refine ((pairwise_inOrder es).and hne).imp_of_mem fun {a b} ha hb hab => ?_
  have ha := hperm.mem_iff.mp ha
  have hb := hperm.mem_iff.mp hb
  rcases hapart a ha b hb hab.2 with h | h
  · exact h
  · have := hle b hb
    have := hab.1
    omega

/-- **Edits of margins mend a text.** In whatever order they are given, they can be carried out. -/
theorem applyEdits_mended
    (hapart : ∀ a ∈ es, ∀ b ∈ es, a ≠ b → a.stop < b.start ∨ b.stop < a.start)
    (hnodup : es.Nodup) :
    ∃ fixed, applyEdits text es = .ok fixed ∧ Mended es (-1) ('\n' :: text) ('\n' :: fixed) := by
  have hord := apart_inOrder hes hapart hnodup
  have hmem : ∀ e, e ∈ inOrder es ↔ e ∈ es := fun e => (perm_inOrder es).mem_iff
  unfold applyEdits
  by_cases hzero : ∃ e ∈ es, e.start = 0
  · obtain ⟨e, he, hstart⟩ := hzero
    obtain ⟨before, w, after, htext, -, h1, h2, hw⟩ := (hes e he).slice
    obtain rfl : before = [] := List.length_eq_zero_iff.mp (by omega)
    -- The edit at the beginning of the text comes first.
    obtain ⟨edits, hedits⟩ : ∃ edits, inOrder es = e :: edits := by
      cases hin : inOrder es with
      | nil =>
        have := (hmem e).mpr he
        rw [hin] at this
        cases this
      | cons f edits =>
        refine ⟨edits, ?_⟩
        have hf := (hmem f).mp (by rw [hin]; exact List.mem_cons_self)
        rw [hin] at hord
        have hem := (hmem e).mpr he
        rw [hin] at hem
        rcases List.mem_cons.mp hem with rfl | hem
        · rfl
        · have hlt := (List.pairwise_cons.mp hord).1 e hem
          obtain ⟨bf, wf, af, -, -, hf1, hf2, -⟩ := (hes f hf).slice
          omega
    rw [hedits] at hord hmem
    obtain ⟨hfirst, hlater⟩ := List.pairwise_cons.mp hord
    have hstop : e.stop = ([] ++ [] ++ w : List Char).length := by simpa using h2
    obtain ⟨b, h3, h4⟩ := applyFrom_mended hes (x := w) (by simpa using htext)
      (fun f hf => (hmem f).mp (List.mem_cons_of_mem e hf)) (by
        intro f hf
        rcases List.mem_cons.mp ((hmem f).mpr hf) with rfl | h
        · right
          omega
        · exact .inl h) hlater (fun f hf => by
          have := hfirst f hf
          simp only [List.nil_append] at hstop
          omega)
    have hlimit := congrArg List.length htext
    simp only [List.nil_append, List.length_append] at hlimit
    refine ⟨e.text ++ b, ?_, ?_⟩
    · rw [hedits]
      have hlimit' : ([] ++ [] ++ w : List Char).length ≤ text.length := by
        simp only [List.nil_append]
        omega
      have := applyFrom_cons (by simpa using hstart) hstop hlimit' (by simpa using h3)
      simpa [htext] using this
    · rw [show text = w ++ after by simpa using htext]
      refine .mend he (by omega) (by simpa using h2) hw (hes e he).margin_text ?_
      convert h4 using 1
      omega
  · have hpos : ∀ e ∈ es, (0 : Int) < e.start := by
      intro e he
      obtain ⟨before, w, after, -, -, h1, -, -⟩ := (hes e he).slice
      have : e.start ≠ 0 := fun h => hzero ⟨e, he, h⟩
      omega
    obtain ⟨b, h1, h2⟩ := applyFrom_mended hes (x := []) rfl
      (fun f hf => (hmem f).mp hf) (fun f hf => .inl ((hmem f).mpr hf)) hord
      (fun f hf => hpos f ((hmem f).mp hf))
    refine ⟨b, h1, .line (fun e he => ?_) h2⟩
    have := hpos e he
    omega

end Apply

/-! ## Line by line -/

/-- The number of the line at whose beginning an edit stands. -/
def Edit.line (text : List Char) (e : Edit) : Nat :=
  (text.take e.start.toNat).count '\n' + 1

/-- A line of a text after edits of margins: the margin is replaced if there is an edit. -/
def mendLine (es : List Edit) (text : List Char) (number : Nat) (line : List Char) : List Char :=
  match es.find? fun e => e.line text == number with
  | some e => e.text ++ line.drop (e.stop - e.start).toNat
  | none => line

theorem mendLine_of_none {es : List Edit} {text : List Char} {number : Nat}
    (h : ∀ e ∈ es, e.line text ≠ number) (line : List Char) :
    mendLine es text number line = line := by
  have : es.find? (fun e => e.line text == number) = none := by
    rw [List.find?_eq_none]
    exact fun e he => by simpa using h e he
  rw [mendLine, this]

theorem mendLine_of_mem {es : List Edit} {text : List Char} {number : Nat} {e : Edit} (he : e ∈ es)
    (hline : e.line text = number) (hunique : ∀ f ∈ es, f.line text = number → f = e)
    (line : List Char) :
    mendLine es text number line = e.text ++ line.drop (e.stop - e.start).toNat := by
  have hsome : (es.find? fun e => e.line text == number).isSome := by
    rw [List.find?_isSome]
    exact ⟨e, he, by simpa using hline⟩
  obtain ⟨f, hf⟩ := Option.isSome_iff_exists.mp hsome
  have := hunique f (List.mem_of_find?_eq_some hf) (by simpa using List.find?_some hf)
  rw [mendLine, hf, this]

/-- A line begins at one place only. -/
theorem prefix_unique {p q text : List Char} (hp : p <+: text) (hq : q <+: text)
    (hpl : lastLine p = []) (hql : lastLine q = []) (hcount : p.count '\n' = q.count '\n') :
    p = q := by
  have key : ∀ p q : List Char, p <+: q → lastLine q = [] → p.count '\n' = q.count '\n' → p = q := by
    rintro p _ ⟨r, rfl⟩ hql hcount
    by_cases hr : r = []
    · simp [hr]
    · obtain ⟨line, rfl⟩ := eq_append_newline hql hr
      simp at hcount
  rcases List.prefix_or_prefix_of_prefix hp hq with h | h
  · exact key p q h hql hcount
  · exact (key q p h hpl hcount.symm).symm

section Lines

variable {text : List Char} {es : List Edit} (hes : ∀ e ∈ es, e.OnMargin text)
include hes

/-- An edit on the line after a line end begins right after it. -/
theorem start_eq_of_line {x a : List Char} (hx : '\n' :: text = x ++ '\n' :: a) {e : Edit}
    (he : e ∈ es) (hline : e.line text = x.count '\n' + 1) : e.start = x.length := by
  obtain ⟨before, w, after, htext, hlast, hstart, -, -⟩ := (hes e he).slice
  have hbefore : text.take e.start.toNat = before := by
    rw [htext]
    exact List.take_left' (by omega)
  have hcount : ('\n' :: before).count '\n' = (x ++ ['\n']).count '\n' := by
    rw [Edit.line, hbefore] at hline
    simp [hline]
  have hpre : x ++ ['\n'] <+: '\n' :: text := ⟨a, by rw [hx]; simp⟩
  have hpre' : '\n' :: before <+: '\n' :: text := ⟨w ++ after, by rw [htext]; simp⟩
  have heq := prefix_unique hpre' hpre (by rw [lastLine_newline_cons, hlast]) (by simp) hcount
  have := congrArg List.length heq
  simp only [List.length_cons, List.length_append, List.length_nil] at this
  omega

omit hes in
theorem line_of_start {x a : List Char} (hx : '\n' :: text = x ++ '\n' :: a) {e : Edit}
    (hstart : e.start = x.length) : e.line text = x.count '\n' + 1 := by
  have : '\n' :: text.take x.length = x ++ ['\n'] := by
    have := congrArg (List.take (x.length + 1)) hx
    rw [List.take_succ_cons] at this
    rw [this, show x ++ '\n' :: a = (x ++ ['\n']) ++ a by simp]
    exact List.take_left' (by simp)
  have := congrArg (List.count '\n') this
  simp only [List.count_cons_self, List.count_append, List.count_nil] at this
  rw [Edit.line, hstart, Int.toNat_natCast, this]

/-- **Mending works line by line.** -/
theorem splitOn_mended (hunique : ∀ a ∈ es, ∀ b ∈ es, a.start = b.start → a = b) {o : Int}
    {a b x : List Char} (h : Mended es o a b)
    (hx : '\n' :: text = x ++ a) (ho : o + 1 = x.length) :
    ∃ first rest, a.splitOn '\n' = first :: rest ∧ b.splitOn '\n' = first ::
      rest.mapIdx fun n line => mendLine es text (x.count '\n' + 1 + n) line := by
  induction h generalizing x with
  | nil => exact ⟨[], [], by simp⟩
  | @char o c a b hc _ ih =>
    obtain ⟨first, rest, h1, h2⟩ := ih (x := x ++ [c]) (by rw [hx]; simp) (by simp; omega)
    refine ⟨c :: first, rest, ?_, ?_⟩
    · rw [splitOn_cons_of_ne hc, h1]
      rfl
    · rw [splitOn_cons_of_ne hc, h2, List.count_append, List.count_singleton]
      simp [hc]
  | @line o a b hn _ ih =>
    obtain ⟨first, rest, h1, h2⟩ := ih (x := x ++ ['\n']) (by rw [hx]; simp) (by simp; omega)
    refine ⟨[], first :: rest, by rw [splitOn_newline, h1], ?_⟩
    have hfirst := mendLine_of_none
      (fun e he hline => hn e he (by have := start_eq_of_line hes hx he hline; omega)) first
    rw [splitOn_newline, h2, List.mapIdx_cons, Nat.add_zero, hfirst, List.count_append,
      List.count_singleton_self]
    congr 3
    funext n line
    congr 1
    omega
  | @mend o e w a b he h1 h2 hw ht _ ih =>
    obtain ⟨first, rest, h3, h4⟩ := ih (x := x ++ '\n' :: w) (by rw [hx]; simp)
      (by simp only [List.length_append, List.length_cons]; omega)
    refine ⟨[], (w ++ first) :: rest, ?_, ?_⟩
    · rw [splitOn_newline, splitOn_append_of_not_mem hw.newline_not_mem h3]
    have hfirst := mendLine_of_mem he (line_of_start hx (by omega)) (fun f hf hline =>
      hunique f hf e he (by have := start_eq_of_line hes hx hf hline; omega)) (w ++ first)
    have hlen : (e.stop - e.start).toNat = w.length := by omega
    rw [hlen, List.drop_left] at hfirst
    rw [splitOn_newline, splitOn_append_of_not_mem ht.newline_not_mem h4, List.mapIdx_cons,
      Nat.add_zero, hfirst, List.count_append, List.count_cons_self,
      List.count_eq_zero.mpr hw.newline_not_mem]
    congr 3
    funext n line
    congr 1
    omega

end Lines

end MarkupIndent.Margin
