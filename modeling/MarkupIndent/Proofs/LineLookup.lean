import Mathlib.Logic.Relation
import MarkupIndent.Proofs.ReadErrors

/-!
# Looking lines up

The table of a text has a line for each line end and one more. A line begins at or before an offset
just if its number is not above that of the offset's line; so whichever way the table is searched
for the border between the two, the number that comes out is the same. All that there is to say of
lines and offsets follows from this: the line of an offset holds it, and the line of the offset at
which a line begins is that line.

The reader does not search. It carries its place along, over characters that it skips and over
those that become tokens, and its errors and tokens have the line and the column of the place where
it stands. Whichever way it came to an offset, these are the line of the table and the distance
from where this line begins.

* `exists_start`: where a line begins; `start_le_iff`: **the lines up to an offset**.
* `LineTable.Separates`, `separates_iff`: the border that a search finds.
* `LineTable.Holds`, `exists_holds`: a line with the offsets on it.
* `Reading.Move`, `moves_of_read`: **how the reader comes to its tokens and errors**.
* `Reading.place_of_moves`: **the place of a reading is that of its offset**.
* `lookup_exact`: **lines are looked up exactly**, in the table and while reading.
-/

namespace MarkupIndent.Text

/-! ## The lines of a text -/

theorem length_linesAfter (text : List Char) (o : Nat) :
    (linesAfter o text).length = text.count '\n' := by
  induction text generalizing o with
  | nil => rfl
  | cons c rest ih =>
    rw [linesAfter]
    split
    · next hc => rw [List.length_cons, ih, hc, List.count_cons_self]
    · next hc => rw [ih, List.count_cons_of_ne hc]

/-- There is a line for each line end and one more. -/
theorem count_ofText (text : List Char) :
    (LineTable.ofText text).count = text.count '\n' + 1 := by
  rw [LineTable.count, LineTable.ofText, List.size_toArray, List.length_cons, length_linesAfter]

/-- The later of two offsets is on the later line. -/
theorem lineOf_mono (t : LineTable) {o p : Int} (h : o ≤ p) : t.lineOf o ≤ t.lineOf p := by
  unfold LineTable.lineOf
  refine Array.countP_mono_left fun l _ hl => ?_
  simp only [decide_eq_true_eq] at hl ⊢
  exact Int.le_trans hl h

section Lookup

variable {text before after : List Char} {l o n start : Nat}

/-- From one offset to a later one, the number of the line grows by the line ends between them. -/
theorem lineOf_eq_add (text : List Char) (h : start ≤ o) :
    (LineTable.ofText text).lineOf o = (LineTable.ofText text).lineOf start +
      ((text.drop start).take (o - start)).count '\n' := by
  have hsplit : text.take o = text.take start ++ (text.drop start).take (o - start) := by
    rw [← List.take_add, Nat.add_sub_cancel' h]
  rw [lineOf_ofText, lineOf_ofText, hsplit, List.count_append, Nat.add_right_comm]

theorem lineOf_length (before after : List Char) :
    (LineTable.ofText (before ++ after)).lineOf before.length = before.count '\n' + 1 := by
  rw [lineOf_ofText, List.take_left' rfl]

/-- The text before a line is empty or ends with a line end. -/
theorem exists_before_line (hl : 1 ≤ l) (hcount : l ≤ (LineTable.ofText text).count) :
    ∃ before after, text = before ++ after ∧ lastLine before = [] ∧
      before.count '\n' + 1 = l := by
  induction l, hl using Nat.le_induction with
  | base => exact ⟨[], text, rfl, rfl, rfl⟩
  | succ l hl ih =>
    obtain ⟨before, after, rfl, -, hbefore⟩ := ih (Nat.le_of_succ_le hcount)
    rw [count_ofText, List.count_append] at hcount
    -- The line ends somewhere, since another one follows.
    have hmem : '\n' ∈ after := List.count_pos_iff.mp (by omega)
    obtain ⟨line, rest, rfl, hline⟩ := List.eq_append_cons_of_mem hmem
    refine ⟨before ++ line ++ ['\n'], rest, by simp, lastLine_append_newline _, ?_⟩
    rw [List.count_append, List.count_append, List.count_eq_zero.mpr hline,
      List.count_singleton_self, Nat.add_zero, ← hbefore]

/-- **Every line begins at an offset of the text**, which is on this line. -/
theorem exists_start (hl : 1 ≤ l) (hcount : l ≤ (LineTable.ofText text).count) :
    ∃ start, (LineTable.ofText text).start? l = some start ∧ start ≤ text.length ∧
      lastLine (text.take start) = [] ∧ (LineTable.ofText text).lineOf start = l := by
  obtain ⟨before, after, rfl, hlast, rfl⟩ := exists_before_line hl hcount
  refine ⟨before.length, ?_, by simp, by rwa [List.take_left' rfl], lineOf_length before after⟩
  rw [LineTable.start?, line?_ofText, hlast]
  rfl

/-- A stretch that leads to the beginning of a line ends with a line end, so its first offset is on
an earlier line. -/
theorem lineOf_lt_of_lt (hlast : lastLine (text.take start) = []) (hle : start ≤ text.length)
    (h : o < start) : (LineTable.ofText text).lineOf o < (LineTable.ofText text).lineOf start := by
  have hsplit : text.take start = text.take o ++ (text.drop o).take (start - o) := by
    rw [← List.take_add, Nat.add_sub_cancel' (Nat.le_of_lt h)]
  have hne : (text.drop o).take (start - o) ≠ [] := by
    rw [← List.length_pos_iff, List.length_take, List.length_drop]
    omega
  rw [hsplit] at hlast
  obtain ⟨line, hline⟩ := eq_append_newline hlast hne
  rw [lineOf_eq_add text (Nat.le_of_lt h), hline, List.count_append, List.count_singleton_self]
  omega

/-- **The lines up to an offset** are those with numbers up to that of its line. -/
theorem start_le_iff (hl : 1 ≤ l) (hcount : l ≤ (LineTable.ofText text).count)
    (hstart : (LineTable.ofText text).start? l = some start) :
    start ≤ o ↔ l ≤ (LineTable.ofText text).lineOf o := by
  obtain ⟨s, hs, hle, hlast, hline⟩ := exists_start hl hcount
  obtain rfl := Option.some.inj (hstart.symm.trans hs)
  constructor
  · intro h
    calc l = (LineTable.ofText text).lineOf start := hline.symm
      _ ≤ (LineTable.ofText text).lineOf o := lineOf_mono _ (Int.ofNat_le.mpr h)
  · intro h
    by_contra hlt
    have := lineOf_lt_of_lt hlast hle (Nat.lt_of_not_le hlt)
    omega

/-! ## Searching for the line of an offset -/

/-- A number of lines of a table: those up to it begin at or before an offset, and those after it
begin later. -/
structure LineTable.Separates (t : LineTable) (n o : Nat) : Prop where
  le_count : n ≤ t.count
  border : ∀ l start : Nat, 1 ≤ l → l ≤ t.count → t.start? l = some start → (start ≤ o ↔ l ≤ n)

theorem lineOf_pos (text : List Char) (o : Nat) : 1 ≤ (LineTable.ofText text).lineOf o := by
  rw [lineOf_ofText]
  exact Nat.le_add_left 1 _

theorem lineOf_le_count (t : LineTable) (o : Int) : t.lineOf o ≤ t.count :=
  Array.countP_le_size

/-- **A search finds the line of an offset**, for no other number separates the lines. -/
theorem separates_iff :
    (LineTable.ofText text).Separates n o ↔ n = (LineTable.ofText text).lineOf o := by
  constructor
  · rintro ⟨hn, hborder⟩
    have hpos := lineOf_pos text o
    have hle := lineOf_le_count (LineTable.ofText text) o
    obtain ⟨start, hstart, -⟩ := exists_start hpos hle
    have hmn : (LineTable.ofText text).lineOf o ≤ n :=
      (hborder _ _ hpos hle hstart).mp ((start_le_iff hpos hle hstart).mpr (Nat.le_refl _))
    obtain ⟨last, hlast, -⟩ := exists_start (Nat.le_trans hpos hmn) hn
    have hnm : n ≤ (LineTable.ofText text).lineOf o :=
      (start_le_iff (Nat.le_trans hpos hmn) hn hlast).mp
        ((hborder _ _ (Nat.le_trans hpos hmn) hn hlast).mpr (Nat.le_refl n))
    exact Nat.le_antisymm hnm hmn
  · rintro rfl
    exact ⟨lineOf_le_count _ _, fun _ _ hl hcount hstart => start_le_iff hl hcount hstart⟩

/-- A line of a text, by its number and its first offset, with an offset on it: no line end stands
between the two, and the next line, if there is one, begins later. -/
structure LineTable.Holds (t : LineTable) (text : List Char) (line start o : Nat) : Prop where
  pos : 1 ≤ line
  le_count : line ≤ t.count
  begins : t.start? line = some start
  start_le : start ≤ o
  unbroken : '\n' ∉ (text.drop start).take (o - start)
  next : line < t.count → ∃ following, t.start? (line + 1 : Nat) = some following ∧ o < following

/-- **The line of an offset holds it.** -/
theorem exists_holds (text : List Char) (o : Nat) :
    ∃ start, (LineTable.ofText text).Holds text ((LineTable.ofText text).lineOf o) start o := by
  have hpos := lineOf_pos text o
  have hle := lineOf_le_count (LineTable.ofText text) o
  obtain ⟨start, hstart, -, -, hline⟩ := exists_start hpos hle
  have hso : start ≤ o := (start_le_iff hpos hle hstart).mpr (Nat.le_refl _)
  refine ⟨start, hpos, hle, hstart, hso, ?_, fun hlt => ?_⟩
  · -- The offset and the beginning of its line are on the same line.
    have := lineOf_eq_add text hso
    exact List.count_eq_zero.mp (by omega)
  · obtain ⟨following, hfollowing, -⟩ := exists_start (Nat.le_add_left 1 _) hlt
    refine ⟨following, hfollowing, Nat.lt_of_not_le fun h => ?_⟩
    have := (start_le_iff (Nat.le_add_left 1 _) hlt hfollowing).mp h
    omega

/-! ## The place of an offset -/

/-- A place that was carried along is that of the table. -/
theorem over_eq (hstart : (LineTable.ofText (before ++ after)).start?
    ((LineTable.ofText (before ++ after)).lineOf before.length) = some start) :
    Cursor.start.over before = ⟨before.length,
      (LineTable.ofText (before ++ after)).lineOf before.length, before.length - start⟩ := by
  have hlen := length_lastLine_le before
  rw [lineOf_length, LineTable.start?, line?_ofText, Option.map_some, Option.some.injEq] at hstart
  have hcolumn : before.length - start = (lastLine before).length := by
    rw [← hstart]
    exact Nat.sub_sub_self hlen
  rw [lineOf_length, hcolumn, ← line_over, ← column_over]
  conv_rhs => rw [← offset_start_over before]

end Lookup

end MarkupIndent.Text

namespace MarkupIndent.Markup

open Text

namespace Reading

/-- A reader goes over its next characters, or makes a token of them. -/
inductive Move : Reading → Reading → Prop
  | skip (r : Reading) (n : Nat) : Move r (r.skip n)
  | emit (r : Reading) (kind : TokenKind) (n : Nat) : Move r (r.emit kind n)

/-- One reading goes on to another. -/
abbrev Moves : Reading → Reading → Prop := Relation.ReflTransGen Move

variable {text : List Char} {r s : Reading} {ts : List Token} {o start : Nat}

/-- Whatever reads goes on in this way. -/
theorem Reads.moves (h : Reads r ts s) : Moves r s := by
  induction h with
  | done => exact .refl
  | skip _ _ _ ih => exact .tail ih (.skip _ _)
  | emit _ _ _ ih => exact .tail ih (.emit _ _ _)

/-- A token that was read was made where the reader had come to. -/
theorem Reads.exists_moves {t : Token} (h : Reads r ts s) (ht : t ∈ ts) :
    ∃ q n, Moves r q ∧ t = q.token t.kind n := by
  induction h with
  | done => cases ht
  | skip _ _ _ ih => exact ih ht
  | @emit u us kind n hu _ _ ih =>
    rcases List.mem_append.mp ht with ht | ht
    · exact ih ht
    · obtain rfl := List.mem_singleton.mp ht
      exact ⟨u, n, hu.moves, rfl⟩

/-- An error that concerns where a reading goes to is that of a place there. -/
theorem Halts.exists_moves {e : ReadError} (h : r.Halts e) :
    ∃ q, Moves r q ∧ e = q.fail e.fault := by
  obtain ⟨us, q, hq, ⟨fault, -, rfl⟩ | hopen⟩ := h
  · exact ⟨q, hq.moves, rfl⟩
  · exact ⟨q, hq.moves, by rw [hopen.error]; rfl⟩

/-- A reading has its place behind what it has read of a text. -/
def Behind (text : List Char) (r : Reading) : Prop :=
  ∃ before, text = before ++ r.rest ∧ r.place = Cursor.start.over before

theorem behind_start (text : List Char) : Behind text (.start text) := ⟨[], rfl, rfl⟩

theorem Behind.skip (h : Behind text r) (n : Nat) : Behind text (r.skip n) := by
  obtain ⟨before, htext, hplace⟩ := h
  refine ⟨before ++ r.rest.take n, ?_, ?_⟩
  · rw [rest_skip, List.append_assoc, List.take_append_drop, htext]
  · rw [Cursor.over_append, ← hplace]
    rfl

theorem behind_of_moves (h : Moves (.start text) r) : Behind text r := by
  induction h with
  | refl => exact behind_start text
  | tail _ hmove ih =>
    cases hmove with
    | skip n => exact ih.skip n
    -- A token takes the reader as far as the characters would without one.
    | emit kind n => exact ih.skip n

/-- **The place of a reading is that of its offset.** -/
theorem place_of_moves (h : Moves (.start text) r) (hr : r.place.offset = o)
    (hstart : (LineTable.ofText text).start? ((LineTable.ofText text).lineOf o) = some start) :
    r.place = ⟨o, (LineTable.ofText text).lineOf o, o - start⟩ := by
  obtain ⟨before, htext, hplace⟩ := behind_of_moves h
  obtain rfl : before.length = o := by rw [← hr, hplace, offset_start_over]
  rw [htext] at hstart ⊢
  rw [hplace, over_eq hstart]

/-- The reader can come to any offset. -/
theorem exists_moves (ho : o ≤ text.length) : ∃ r, Moves (.start text) r ∧ r.place.offset = o := by
  refine ⟨(start text).skip o, .single (.skip _ _), ?_⟩
  show (Cursor.start.over (text.take o)).offset = o
  rw [offset_start_over, List.length_take_of_le ho]

end Reading

theorem moves_of_becomes {text : List Char} {t : OpenTree} (h : (OpenTree.start text).Becomes t) :
    Reading.Moves (.start text) t.reading := by
  obtain ⟨⟨ts, hts⟩, -⟩ := h.grows (fits_start text)
  exact hts.moves

/-- **How the reader comes to its tokens and errors.** Each token of a document is made at a place
to which the reader moves, and so is the error of a text that is no document. -/
theorem moves_of_read (text : List Char) :
    (∃ d, Document.read text = .ok d ∧
      ∀ t ∈ d.tokens, ∃ r n, Reading.Moves (.start text) r ∧ t = r.token t.kind n) ∨
    ∃ e r, Document.read text = .error e ∧ Reading.Moves (.start text) r ∧ e = r.fail e.fault := by
  rcases hread : Document.read text with e | d
  · obtain ⟨t, ht, ⟨-, hhalts⟩ | ⟨hopens, -⟩⟩ := exists_becomes_of_read hread
    · obtain ⟨q, hq, he⟩ := hhalts.exists_moves
      exact .inr ⟨e, q, rfl, (moves_of_becomes ht).trans hq, he⟩
    · refine .inr ⟨e, t.reading, rfl, moves_of_becomes ht, ?_⟩
      cases hopens <;> rfl
  · refine .inl ⟨d, rfl, fun t ht => ?_⟩
    obtain ⟨u, hu, -, -, htokens, -⟩ := grow_of_read hread
    obtain ⟨⟨⟨ts, hts⟩, -⟩, -⟩ := OpenTree.grows_grow hu (fits_start text)
    rw [htokens, hts.tokens] at ht
    exact hts.exists_moves (by simpa [OpenTree.start, Reading.start] using ht)

/-- **Lines are looked up exactly**, in a document of any text, be it read or not. The table has a
line for each line end and one more. The number of the line of an offset is the one that separates
the lines up to the offset from the later ones; this line holds the offset, and no earlier offset is
on a later line. A line is the line of the offset at which it begins. And whichever way the reader
comes to an offset, the errors and tokens that it has there are on the line of the table, at the
distance from where that line begins. -/
theorem lookup_exact (d : Document) {l o : Nat} (hl : 1 ≤ l) (hcount : l ≤ d.lines.count)
    (ho : o ≤ d.text.length) :
    d.lines.count = d.text.count '\n' + 1 ∧
    (∀ n, d.lines.Separates n o ↔ n = d.lines.lineOf o) ∧
    (∀ p : Nat, p ≤ o → d.lines.lineOf p ≤ d.lines.lineOf o) ∧
    (∃ start, d.lines.start? l = some start ∧ d.lines.lineOf start = l) ∧
    (∃ r, Reading.Moves (.start d.text) r ∧ r.place.offset = o) ∧
    ∃ start, d.lines.Holds d.text (d.lines.lineOf o) start o ∧
      ∀ r, Reading.Moves (.start d.text) r → r.place.offset = o →
        (∀ fault, r.fail fault = ⟨fault, d.lines.lineOf o, o - start⟩) ∧
        ∀ kind n, (r.emit kind n).tokens = r.tokens.push
          { index := r.tokens.size
            kind := kind
            text := r.rest.take n
            start := o
            stop := o + n
            line := d.lines.lineOf o
            column := o - start } := by
  rw [d.lines_eq] at hcount ⊢
  obtain ⟨first, hfirst, -, -, hline⟩ := exists_start hl hcount
  obtain ⟨start, hholds⟩ := exists_holds d.text o
  refine ⟨count_ofText d.text, fun n => separates_iff,
    fun p hp => lineOf_mono _ (Int.ofNat_le.mpr hp), ⟨first, hfirst, hline⟩,
    Reading.exists_moves ho, start, hholds, fun r hmoves hr => ?_⟩
  have hplace := Reading.place_of_moves hmoves hr hholds.begins
  refine ⟨fun fault => ?_, fun kind n => ?_⟩
  · rw [Reading.fail, ReadFault.at, hplace]
  · rw [Reading.tokens_emit, Reading.token, hplace]

/-- The second line has its line end alone, and the last line begins where the text ends. -/
theorem lookup_exact_emptyLines :
    ∃ d : Document, Document.read "<a>\n\n</a>\n".toList = .ok d ∧
      1 ≤ 4 ∧ 4 ≤ d.lines.count ∧ 4 ≤ d.text.length ∧
      d.lines.start? (4 : Nat) = some 10 ∧ d.lines.lineOf (10 : Nat) = 4 ∧
      d.lines.Holds d.text 2 4 4 ∧
      ∃ r, Reading.Moves (.start d.text) r ∧ r.place.offset = 4 ∧
        r.fail .expectedTagEnd = ⟨.expectedTagEnd, 2, 0⟩ := by
  obtain ⟨d, hd⟩ := exists_of_isOk
    (show (Document.read "<a>\n\n</a>\n".toList).isOk = true by decide +kernel)
  have htext : d.text = "<a>\n\n</a>\n".toList := text_of_read hd
  have hlines : d.lines = .ofText "<a>\n\n</a>\n".toList := by rw [d.lines_eq, htext]
  have hcount : 4 ≤ d.lines.count := by rw [hlines]; decide +kernel
  have ho : 4 ≤ d.text.length := by rw [htext]; decide +kernel
  have hlast : d.lines.start? (4 : Nat) = some 10 := by rw [hlines]; decide +kernel
  have hof : d.lines.lineOf (4 : Nat) = 2 := by rw [hlines]; decide +kernel
  have hsecond : d.lines.start? (2 : Nat) = some 4 := by rw [hlines]; decide +kernel
  obtain ⟨-, -, -, ⟨first, hfirst, hline⟩, ⟨r, hr, hplace⟩, start, hholds, hreader⟩ :=
    lookup_exact d (by decide) hcount ho
  obtain rfl := Option.some.inj (hlast.symm.trans hfirst)
  rw [hof] at hholds hreader
  obtain rfl := Option.some.inj (hsecond.symm.trans hholds.begins)
  exact ⟨d, hd, by decide, hcount, ho, hlast, hline, hholds, r, hr, hplace,
    (hreader r hr hplace).1 _⟩

end MarkupIndent.Markup
