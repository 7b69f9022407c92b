import MarkupIndent.Proofs.LineHeads

/-!
# Tokens and the table of lines

The tokens of a document are slices of its text, in order, with only blanks between them. Their
lines and columns were counted while reading; the table of lines, which is searched afterwards,
says the same of their offsets.

* `Token.Placed`: a token is a slice, and its lines and column are those of its offsets.
* `Document.Lossless`: so are all tokens of a document, and they leave out nothing but blanks.
* `lossless_of_read`: **every document is lossless**.
-/

namespace MarkupIndent.Markup

open Margin Text

/-- The token of an index is the slice of the text between its offsets, which is not empty. It
begins on the line and at the column of the first offset and ends on the line of the last. -/
structure Token.Placed (d : Document) (i : Nat) (t : Token) : Prop where
  index : t.index = i
  lt : t.start < t.stop
  le : t.stop ≤ d.text.length
  slice : t.text = (d.text.drop t.start).take (t.stop - t.start)
  line : t.line = d.lines.lineOf t.start
  column : ∃ start, d.lines.start? t.line = some start ∧ t.start = start + t.column
  endLine : t.endLine = d.lines.lineOf (t.stop - 1)

/-- The tokens of a document are slices of its text in order, and what no token covers is blank. -/
structure Document.Lossless (d : Document) : Prop where
  placed : ∀ (i : Nat) (t : Token), d.tokens[i]? = some t → t.Placed d i
  ordered : ∀ (i j : Nat) (s t : Token), i < j → d.tokens[i]? = some s → d.tokens[j]? = some t →
    s.stop ≤ t.start
  gaps : ∀ (o : Nat) (c : Char), d.text[o]? = some c →
    (∀ t ∈ d.tokens, ¬ (t.start ≤ o ∧ o < t.stop)) → isBlank c = true

/-- What is counted while reading is what the table of lines says. -/
theorem placed_of_tokenAt {d : Document} {i : Nat} {t : Token} (h : TokenAt d.text i t) :
    t.Placed d i where
  index := h.index
  lt := h.lt
  le := h.le
  slice := h.slice
  line := by rw [d.lines_eq, lineOf_ofText, h.line]
  column := by
    have hle := length_lastLine_le (d.text.take t.start)
    rw [List.length_take] at hle
    refine ⟨_, start?_of_tokenAt h, ?_⟩
    rw [h.column]
    omega
  endLine := by
    have hpos : 1 ≤ t.stop := Nat.lt_of_le_of_lt (Nat.zero_le _) h.lt
    have hcast : (t.stop : Int) - 1 = (t.stop - 1 : Nat) := (Int.natCast_sub hpos).symm
    rw [endLine_eq h, d.lines_eq, hcast, lineOf_ofText]

/-- **Reading loses nothing.** The tokens of a text are slices of it, in order and apart from each
other, that leave out nothing but blanks; and each of them knows its index, its column, and the
lines of its first and its last character. -/
theorem lossless_of_read {text : List Char} {d : Document} (h : Document.read text = .ok d) :
    d.text = text ∧ d.Lossless := by
  have htokens := tokenized_of_read h
  obtain rfl := text_of_read h
  refine ⟨rfl, fun i t ht => placed_of_tokenAt (htokens.token i t ht), htokens.ordered, ?_⟩
  intro o c hc hfree
  have ho : o < d.text.length := (List.getElem?_eq_some_iff.mp hc).1
  exact htokens.gaps o c ho hc fun i t ht => hfree t (Array.mem_of_getElem? ht)

/-- A mustache with a string over two lines, a no-break space, and blanks inside a tag. -/
theorem lossless_of_read_ragged :
    ∃ d : Document, Document.read "<p\n  a=\x7b`x\ny`\x7d >\u00a0\n hi</p>\n".toList = .ok d ∧
      d.tokens.size = 14 ∧ d.text = "<p\n  a=\x7b`x\ny`\x7d >\u00a0\n hi</p>\n".toList ∧
      d.Lossless := by
  obtain ⟨d, hd⟩ := exists_of_isOk (show (Document.read
    "<p\n  a=\x7b`x\ny`\x7d >\u00a0\n hi</p>\n".toList).isOk = true by decide +kernel)
  have hsize : (Document.read "<p\n  a=\x7b`x\ny`\x7d >\u00a0\n hi</p>\n".toList).map
      (fun d => d.tokens.size) = .ok 14 := by decide +kernel
  rw [hd] at hsize
  obtain ⟨htext, hlossless⟩ := lossless_of_read hd
  exact ⟨d, hd, Except.ok.inj hsize, htext, hlossless⟩

end MarkupIndent.Markup
