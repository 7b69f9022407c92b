import Mathlib.Data.List.Induction
import Mathlib.Data.List.TakeWhile
import MarkupIndent.Text.Position

/-!
# Where lines begin

A cursor counts its line and column character by character, and a table of lines is searched. Both
say the same about the text before a place: how many line ends it has, and what stands after the
last of them.

* `lastLine`: the part of a text after its last line end.
* `line_over`, `column_over`: what a cursor counts.
* `line?_ofText`: the line of a place in the table, where it begins and the text from there on.
* `lineOf_ofText`: the number of that line.
* `length_splitOn`, `newline_not_mem_of_mem_splitOn`: the lines between line ends.
-/

namespace MarkupIndent.Text

/-! ## The last line of a text -/

/-- The part of a text after its last line end. -/
def lastLine (text : List Char) : List Char :=
  (text.reverse.takeWhile (· != '\n')).reverse

@[simp] theorem lastLine_nil : lastLine [] = [] := rfl

theorem newline_not_mem_lastLine (text : List Char) : '\n' ∉ lastLine text := by
  intro h
  have := List.mem_takeWhile_imp (List.mem_reverse.mp h)
  simp at this

theorem lastLine_append_of_not_mem {a b : List Char} (h : '\n' ∉ b) :
    lastLine (a ++ b) = lastLine a ++ b := by
  have hb : ∀ c ∈ b.reverse, (c != '\n') = true := by
    intro c hc
    have : c ≠ '\n' := fun e => h (e ▸ List.mem_reverse.mp hc)
    simpa using this
  unfold lastLine
  rw [List.reverse_append, List.takeWhile_append_of_pos hb, List.reverse_append,
    List.reverse_reverse]

theorem lastLine_append_of_mem {a b : List Char} (h : '\n' ∈ b) :
    lastLine (a ++ b) = lastLine b := by
  have key : ∀ xs ys : List Char, '\n' ∈ xs →
      (xs ++ ys).takeWhile (· != '\n') = xs.takeWhile (· != '\n') := by
    intro xs ys hx
    induction xs with
    | nil => cases hx
    | cons x xs ih =>
      by_cases hxn : x = '\n'
      · simp [hxn]
      · have : '\n' ∈ xs := (List.mem_cons.mp hx).resolve_left (Ne.symm hxn)
        simp [hxn, ih this]
  unfold lastLine
  rw [List.reverse_append, key _ _ (List.mem_reverse.mpr h)]

theorem lastLine_of_not_mem {text : List Char} (h : '\n' ∉ text) : lastLine text = text := by
  simpa using lastLine_append_of_not_mem (a := []) h

@[simp] theorem lastLine_append_newline (a : List Char) : lastLine (a ++ ['\n']) = [] := by
  rw [lastLine_append_of_mem (by simp)]
  rfl

theorem lastLine_newline_cons (b : List Char) : lastLine ('\n' :: b) = lastLine b := by
  by_cases h : '\n' ∈ b
  · exact lastLine_append_of_mem (a := ['\n']) h
  · rw [lastLine_of_not_mem h]
    exact lastLine_append_of_not_mem (a := ['\n']) h

/-- What stands before the last line is nothing or ends with a line end. -/
theorem exists_eq_append_lastLine (text : List Char) :
    ∃ before, text = before ++ lastLine text ∧ (before = [] ∨ ∃ a, before = a ++ ['\n']) := by
  refine ⟨(text.reverse.dropWhile (· != '\n')).reverse, ?_, ?_⟩
  · unfold lastLine
    rw [← List.reverse_append, List.takeWhile_append_dropWhile, List.reverse_reverse]
  · cases h : text.reverse.dropWhile (· != '\n') with
    | nil => exact .inl rfl
    | cons c rest =>
      have hc : (c != '\n') = false := by
        have := List.head_dropWhile_not (p := (· != '\n')) (l := text.reverse) (by simp [h])
        simpa [h] using this
      have : c = '\n' := by simpa using hc
      exact .inr ⟨rest.reverse, by simp [this]⟩

/-- A text ends with a line end if its last line is empty. -/
theorem eq_append_newline {a b : List Char} (h : lastLine (a ++ b) = []) (hb : b ≠ []) :
    ∃ line, b = line ++ ['\n'] := by
  rcases List.eq_nil_or_concat b with hnil | ⟨line, c, hc⟩
  · exact absurd hnil hb
  · rw [List.concat_eq_append] at hc
    refine ⟨line, ?_⟩
    by_cases hn : c = '\n'
    · rw [hc, hn]
    · rw [hc, ← List.append_assoc, lastLine_append_of_not_mem (by simpa using Ne.symm hn)] at h
      simp at h

theorem length_lastLine_le (text : List Char) : (lastLine text).length ≤ text.length := by
  obtain ⟨before, h, -⟩ := exists_eq_append_lastLine text
  have := congrArg List.length h
  simp only [List.length_append] at this
  omega

/-! ## What a cursor counts -/

theorem over_concat (p : Cursor) (text : List Char) (c : Char) :
    p.over (text ++ [c]) = (p.over text).step c := by
  rw [Cursor.over_append]
  rfl

theorem offset_start_over (text : List Char) : (Cursor.start.over text).offset = text.length := by
  rw [Cursor.offset_over]
  simp [Cursor.start]

theorem line_over_from (p : Cursor) (text : List Char) :
    (p.over text).line = p.line + text.count '\n' := by
  induction text using List.reverseRecOn with
  | nil => rfl
  | append_singleton text c ih =>
    rw [over_concat, Cursor.step, List.count_append]
    split
    · next h => simp [ih, h, Nat.add_assoc]
    · next h => simp [ih, h]

theorem line_over (text : List Char) : (Cursor.start.over text).line = text.count '\n' + 1 := by
  rw [line_over_from, Nat.add_comm]
  rfl

theorem column_over (text : List Char) :
    (Cursor.start.over text).column = (lastLine text).length := by
  induction text using List.reverseRecOn with
  | nil => rfl
  | append_singleton text c ih =>
    rw [over_concat, Cursor.step]
    split
    · next h => simp [h]
    · next h => rw [lastLine_append_of_not_mem (by simpa using Ne.symm h)]; simp [ih]

/-! ## Looking a line up -/

theorem getElem?_linesAfter (before after : List Char) (o : Nat) :
    ((⟨o, before ++ after⟩ : Line) :: linesAfter o (before ++ after))[before.count '\n']? =
      some ⟨o + (before.length - (lastLine before).length), lastLine before ++ after⟩ := by
  induction before generalizing o with
  | nil => simp
  | cons c before ih =>
    have hlen := length_lastLine_le before
    by_cases hc : c = '\n'
    · subst hc
      have := ih (o + 1)
      simp only [List.cons_append, linesAfter, if_true, List.count_cons_self,
        List.getElem?_cons_succ, this, lastLine_newline_cons, List.length_cons]
      congr 2
      omega
    · by_cases hb : '\n' ∈ before
      · have hcount : 0 < before.count '\n' := List.count_pos_iff.mpr hb
        obtain ⟨n, hn⟩ : ∃ n, before.count '\n' = n + 1 := ⟨before.count '\n' - 1, by omega⟩
        have hlast : lastLine (c :: before) = lastLine before :=
          lastLine_append_of_mem (a := [c]) hb
        have := ih (o + 1)
        rw [hn, List.getElem?_cons_succ] at this
        simp only [List.cons_append, linesAfter, if_neg hc, List.count_cons_of_ne hc, hn,
          List.getElem?_cons_succ, this, hlast, List.length_cons]
        congr 2
        omega
      · have hnot : '\n' ∉ c :: before := by simp [hb, Ne.symm hc]
        rw [List.count_eq_zero.mpr hnot, lastLine_of_not_mem hnot]
        simp

/-- **The line of a place** begins right after the last line end before the place. -/
theorem line?_ofText (before after : List Char) :
    (LineTable.ofText (before ++ after)).line? ((before.count '\n' + 1 : Nat) : Int) =
      some ⟨before.length - (lastLine before).length, lastLine before ++ after⟩ := by
  have h := getElem?_linesAfter before after 0
  have hi : ((before.count '\n' + 1 : Nat) : Int) - 1 = (before.count '\n' : Nat) := by omega
  have hneg : ¬ ((before.count '\n' : Nat) : Int) < 0 := by omega
  simp only [LineTable.line?, hi, hneg, if_false, LineTable.ofText, Int.toNat_natCast,
    List.getElem?_toArray, h, Nat.zero_add]

theorem lt_start_of_mem_linesAfter {o : Nat} {text : List Char} {l : Line}
    (h : l ∈ linesAfter o text) : o < l.start := by
  induction text generalizing o with
  | nil => cases h
  | cons c rest ih =>
    rw [linesAfter] at h
    split at h
    · rcases List.mem_cons.mp h with rfl | h
      · exact Nat.lt_succ_self o
      · exact Nat.lt_of_succ_lt (ih h)
    · exact Nat.lt_of_succ_lt (ih h)

theorem countP_linesAfter (text : List Char) (o n : Nat) :
    (linesAfter o text).countP (fun l => l.start ≤ o + n) = (text.take n).count '\n' := by
  induction text generalizing o n with
  | nil => simp [linesAfter]
  | cons c rest ih =>
    cases n with
    | zero =>
      rw [List.take_zero, List.count_nil, List.countP_eq_zero]
      intro l hl
      have := lt_start_of_mem_linesAfter hl
      simpa using this
    | succ n =>
      have := ih (o + 1) n
      rw [Nat.add_right_comm] at this
      rw [linesAfter, List.take_succ_cons]
      split
      · next hc =>
        rw [hc, List.count_cons_self, List.countP_cons_of_pos (by simp), ← this]
        rfl
      · next hc =>
        rw [List.count_cons_of_ne hc, ← this]
        rfl

/-- **The line that holds an offset** is one more than the line ends before it. -/
theorem lineOf_ofText (text : List Char) (o : Nat) :
    (LineTable.ofText text).lineOf o = (text.take o).count '\n' + 1 := by
  have := countP_linesAfter text 0 o
  rw [Nat.zero_add] at this
  rw [LineTable.lineOf, LineTable.ofText, List.countP_toArray, List.countP_cons_of_pos (by simp),
    ← this]
  simp only [Int.ofNat_le]

theorem upTo_line (before after : List Char) (n : Nat) :
    (⟨before.length - (lastLine before).length, lastLine before ++ after⟩ : Line).upTo
      (before.length + n) = lastLine before ++ after.take n := by
  have hlen := length_lastLine_le before
  have : before.length + n - (before.length - (lastLine before).length) =
      (lastLine before).length + n := by omega
  simp only [Line.upTo, this, List.take_append, List.take_of_length_le (Nat.le_add_right _ n)]
  congr 2
  omega

/-! ## The lines of a text -/

theorem splitOn_newline (a : List Char) : ('\n' :: a).splitOn '\n' = [] :: a.splitOn '\n' := by
  simp [List.splitOn_cons_eq_if_modifyHead]

theorem splitOn_cons_of_ne {c : Char} (hc : c ≠ '\n') (a : List Char) :
    (c :: a).splitOn '\n' = (a.splitOn '\n').modifyHead (c :: ·) := by
  simp [List.splitOn_cons_eq_if_modifyHead, hc]

theorem splitOn_append_of_not_mem {w : List Char} (hw : '\n' ∉ w) {a first : List Char}
    {rest : List (List Char)} (ha : a.splitOn '\n' = first :: rest) :
    (w ++ a).splitOn '\n' = (w ++ first) :: rest := by
  induction w with
  | nil => simpa using ha
  | cons c w ih =>
    have hc : c ≠ '\n' := fun h => hw (h ▸ List.mem_cons_self)
    rw [List.cons_append, splitOn_cons_of_ne hc, ih fun h => hw (List.mem_cons_of_mem c h)]
    rfl

/-- A line has no line end. -/
theorem newline_not_mem_of_mem_splitOn {text line : List Char} (h : line ∈ text.splitOn '\n') :
    '\n' ∉ line := by
  induction text generalizing line with
  | nil => simp_all
  | cons c text ih =>
    by_cases hc : c = '\n'
    · rw [hc, splitOn_newline] at h
      rcases List.mem_cons.mp h with rfl | h
      · exact List.not_mem_nil
      · exact ih h
    · rw [splitOn_cons_of_ne hc] at h
      obtain ⟨first, rest, hsplit⟩ := List.exists_cons_of_ne_nil (List.splitOn_ne_nil '\n' text)
      rw [hsplit] at h ih
      rcases List.mem_cons.mp h with rfl | h
      · exact List.not_mem_cons_of_ne_of_not_mem (Ne.symm hc) (ih List.mem_cons_self)
      · exact ih (List.mem_cons_of_mem _ h)

/-- There is a line more than line ends. -/
theorem length_splitOn (text : List Char) :
    (text.splitOn '\n').length = text.count '\n' + 1 := by
  induction text with
  | nil => rfl
  | cons c text ih =>
    by_cases hc : c = '\n'
    · rw [hc, splitOn_newline, List.length_cons, ih, List.count_cons_self]
    · rw [splitOn_cons_of_ne hc, List.length_modifyHead, ih, List.count_cons_of_ne hc]

end MarkupIndent.Text
