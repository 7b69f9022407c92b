import MarkupIndent.Proofs.Kinship

/-!
# Carrying out edits of margins

Edits of the margins before line heads stand on different lines, so they can be carried out together
and in any order. Every choice of other margins, for whichever heads, is such a list of edits.

* `HeadEdits.onMargin`, `HeadEdits.apart`: what the edits replace is blank, and apart.
* `HeadEdits.applyEdits`: they can be carried out, and mend the text.
* `marginEdits`: the edits that put chosen blanks before line heads; `headEdits_marginEdits`.
-/

namespace MarkupIndent.Margin

open Markup Text

section Lines

variable {d : Document} (htok : Tokenized d.text d.text.length d.tokens)
include htok

/-- The text up to the line of a token, what stands before the token on its line, and the rest. -/
theorem split_line {i : Nat} {t : Token} (ht : d.tokens[i]? = some t) :
    ∃ before, d.text = before ++ (lastLine (d.text.take t.start) ++ d.text.drop t.start) ∧
      lastLine before = [] ∧ before.length + t.column = t.start ∧
      before.count '\n' + 1 = t.line := by
  have hat := htok.token i t ht
  have hlt := hat.lt
  have hle := hat.le
  obtain ⟨before, hsplit, hbefore⟩ := exists_eq_append_lastLine (d.text.take t.start)
  have hlen := congrArg List.length hsplit
  have hcount := congrArg (List.count '\n') hsplit
  rw [List.length_append, List.length_take, ← hat.column] at hlen
  rw [List.count_append, List.count_eq_zero.mpr (newline_not_mem_lastLine _)] at hcount
  refine ⟨before, ?_, ?_, by omega, ?_⟩
  · rw [← List.append_assoc, ← hsplit, List.take_append_drop]
  · rcases hbefore with rfl | ⟨a, rfl⟩ <;> simp
  · rw [hat.line, hcount, Nat.add_zero]

/-- A token stands before the line of every later one. -/
theorem start_lt_of_line_lt {i j : Nat} {t u : Token} (ht : d.tokens[i]? = some t)
    (hu : d.tokens[j]? = some u) (h : t.line < u.line) : t.start < u.start - u.column := by
  obtain ⟨before, htext, -, hlen, hcount⟩ := split_line htok hu
  have htake : d.text.take (u.start - u.column) = before := by
    rw [htext]
    exact List.take_left' (by omega)
  have hline := (htok.token i t ht).line
  have hbefore : (d.text.take t.start).count '\n' <
      (d.text.take (u.start - u.column)).count '\n' := by
    rw [htake]
    omega
  exact lt_of_count_lt hbefore

theorem line_eq_of_start_eq {i j : Nat} {t u : Token} (ht : d.tokens[i]? = some t)
    (hu : d.tokens[j]? = some u) (h : t.start - t.column = u.start - u.column) :
    t.line = u.line := by
  have key : ∀ {i j : Nat} {t u : Token}, d.tokens[i]? = some t → d.tokens[j]? = some u →
      t.start - t.column = u.start - u.column → ¬ t.line < u.line := by
    intro i j t u ht hu h hlt
    have := start_lt_of_line_lt htok ht hu hlt
    omega
  have := key ht hu h
  have := key hu ht h.symm
  omega

end Lines

namespace HeadEdits

variable {d : Document} {es : List Edit} (htok : Tokenized d.text d.text.length d.tokens)
  (hes : HeadEdits d es)
include htok hes

theorem onMargin : ∀ e ∈ es, e.OnMargin d.text := by
  intro e he
  obtain ⟨i, h, hi, hlead, hstop, hwidth⟩ := hes.head e he
  obtain ⟨before, htext, hlast, hlen, -⟩ := split_line htok hi
  have hcolumn := (htok.token i h hi).column
  exact ⟨⟨before, _, _, htext, hlast, by omega, by omega, head_margin htok hi hlead⟩,
    hes.blanks e he⟩

theorem apart : ∀ a ∈ es, ∀ b ∈ es, a ≠ b → a.stop < b.start ∨ b.stop < a.start := by
  -- The head that leads a later line stands behind the line's beginning, where its edit begins.
  have key : ∀ {i j : Nat} {h g : Token} {a b : Edit}, d.tokens[i]? = some h →
      d.tokens[j]? = some g → Leads d.tokens.toList i → Leads d.tokens.toList j → i < j →
      a.stop = h.start → b.stop = g.start → b.stop - b.start = g.column → a.stop < b.start := by
    intro i j h g a b hi hj hil hjl hij ha hb hw
    obtain ⟨u, hu, -, hall⟩ := hjl
    rw [Array.getElem?_toList, hj] at hu
    obtain rfl := Option.some.inj hu
    have hline := hall i h hij (by rw [Array.getElem?_toList, hi]) (hil.significant hi)
    have := start_lt_of_line_lt htok hi hj (Nat.lt_of_le_of_lt (line_le_endLine h) hline)
    omega
  intro a ha b hb hab
  obtain ⟨i, h, hi, hil, ha1, ha2⟩ := hes.head a ha
  obtain ⟨j, g, hj, hjl, hb1, hb2⟩ := hes.head b hb
  rcases Nat.lt_trichotomy i j with hlt | rfl | hgt
  · exact .inl (key hi hj hil hjl hlt ha1 hb1 hb2)
  · rw [hi] at hj
    obtain rfl := Option.some.inj hj
    exact absurd (hes.unique a ha b hb (by omega)) hab
  · exact .inr (key hj hi hjl hil hgt hb1 ha1 ha2)

/-- **Edits of margins before heads can be carried out** and mend the text. -/
theorem applyEdits (hnodup : es.Nodup) : ∃ fixed, Margin.applyEdits d.text es = .ok fixed ∧
    Mended es (-1) ('\n' :: d.text) ('\n' :: fixed) :=
  applyEdits_mended (hes.onMargin htok) (hes.apart htok) hnodup

end HeadEdits

/-! ## Chosen margins -/

/-- The edit that puts blanks before a line head, in place of all that stands there on its line. -/
def marginEdit (head : Token) (blanks : List Char) : Edit :=
  ⟨(head.start : Int) - head.column, head.start, blanks⟩

/-- The edits that put chosen blanks before those line heads of a document for which there is a
choice. -/
def marginEdits (d : Document) (choice : Token → Option (List Char)) : List Edit :=
  (Heads.ofTokens d.tokens).lineHeads.filterMap fun head => (choice head).map (marginEdit head)

theorem mem_marginEdits {d : Document} {choice : Token → Option (List Char)} {e : Edit} :
    e ∈ marginEdits d choice ↔ ∃ head ∈ (Heads.ofTokens d.tokens).lineHeads, ∃ blanks,
      choice head = some blanks ∧ e = marginEdit head blanks := by
  simp only [marginEdits, List.mem_filterMap, Option.map_eq_some_iff, eq_comm (a := e)]

section Choice

variable {d : Document} {choice : Token → Option (List Char)}
  (htok : Tokenized d.text d.text.length d.tokens)
include htok

/-- **Other margins are edits of margins before heads**, whatever blanks are chosen. -/
theorem headEdits_marginEdits
    (hblanks : ∀ head blanks, choice head = some blanks → ∀ c ∈ blanks, c = ' ' ∨ c = '\t') :
    HeadEdits d (marginEdits d choice) := by
  have hx := indexed_of_tokenized htok
  refine ⟨fun e he => ?_, fun e he => ?_, fun a ha b hb hab => ?_⟩
  · obtain ⟨head, hhead, blanks, -, rfl⟩ := mem_marginEdits.mp he
    obtain ⟨i, hi, hlead⟩ := (mem_lineHeads hx).mp hhead
    obtain ⟨-, -, -, hlen, -⟩ := split_line htok hi
    refine ⟨i, head, hi, hlead, rfl, ?_⟩
    simp only [marginEdit]
    omega
  · obtain ⟨head, -, blanks, hchoice, rfl⟩ := mem_marginEdits.mp he
    exact hblanks head blanks hchoice
  · obtain ⟨h, hh, v, hv, rfl⟩ := mem_marginEdits.mp ha
    obtain ⟨g, hg, w, hw, rfl⟩ := mem_marginEdits.mp hb
    obtain ⟨i, hi, -⟩ := (mem_lineHeads hx).mp hh
    obtain ⟨j, hj, -⟩ := (mem_lineHeads hx).mp hg
    obtain ⟨-, -, -, hlen, -⟩ := split_line htok hi
    obtain ⟨-, -, -, hlen', -⟩ := split_line htok hj
    simp only [marginEdit] at hab
    obtain rfl := head_unique htok hh hg (line_eq_of_start_eq htok hi hj (by omega))
    rw [hv] at hw
    rw [Option.some.inj hw]

theorem nodup_marginEdits : (marginEdits d choice).Nodup := by
  have hx := indexed_of_tokenized htok
  have hord : (Heads.ofTokens d.tokens).lineHeads.Pairwise fun a b => a.start < b.start := by
    refine (lineHeads_ordered htok).imp_of_mem fun {a b} ha hb hab => ?_
    obtain ⟨i, hi, -⟩ := (mem_lineHeads hx).mp ha
    obtain ⟨j, hj, -⟩ := (mem_lineHeads hx).mp hb
    have := start_lt_of_line_lt htok hi hj (Nat.lt_of_le_of_lt (line_le_endLine a) hab)
    omega
  refine hord.filterMap _ fun a b hab e he f hf => ?_
  obtain ⟨v, -, rfl⟩ := Option.map_eq_some_iff.mp he
  obtain ⟨w, -, rfl⟩ := Option.map_eq_some_iff.mp hf
  intro heq
  have := congrArg Edit.stop heq
  simp only [marginEdit] at this
  omega

end Choice

end MarkupIndent.Margin
