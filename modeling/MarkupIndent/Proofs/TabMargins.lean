import Mathlib.Logic.Relation
import MarkupIndent.Proofs.Convergence
import MarkupIndent.Proofs.Measures
import MarkupIndent.Proofs.Verbatim

/-!
# Margins in tabs

Where the unit is a tab and alignment by spaces is off, no rule of indentation adds a space: levels
add tabs, and columns add nothing. Spaces get into an expected indentation in one way only. A chain
may end at a line that is not checked, such a line keeps the blanks that it has, and what hangs on
it keeps all of them that follow its tabs.

* `Layout.Next`, `Layout.RestsOn`: the lines along the chain of a checked line, and where it ends.
* `link_cases`: what a step of a chain from a checked head can be.
* `align_of_resolves`: the alignment at the beginning of a chain is that of its end.
* `edits_of_tabs`: **with tabs only, spaces come from lines that are not checked**.
* `edits_of_tabs_unchecked`: they do come from there.
-/

namespace MarkupIndent.Margin

open Markup Settings Text

namespace Layout

variable (l : Layout)

/-- A head other than the root hangs on another by an entry whose base stands on the line of that
one. -/
structure HangsBy (head : Token) (e : OffsetEntry) (base other : Token) : Prop where
  below : l.graph.root ≠ some head.index
  entry : l.graph.entry head.index = .ok (some e)
  kind : e.kind ≠ .pinned
  onBase : l.graph.heads.token e.base = .ok base
  onLine : l.graph.heads.headOf base = .ok other

/-- The head that follows a checked one on its chain. -/
def Next (head other : Token) : Prop :=
  l.isChecked head = .ok true ∧ ∃ e base, l.HangsBy head e base other

/-- The chain of a checked head ends at a head that is not checked. -/
def RestsOn (head last : Token) : Prop :=
  Relation.TransGen l.Next head last ∧ l.isChecked last = .ok false

variable {l}

/-- **A step from a checked head** is a hop to the head that follows, if that one is checked, and
else the indentation that its line has, by the rule of the entry. -/
theorem link_cases {head : Token} {k : Link} (hroot : l.graph.root ≠ some head.index)
    (hc : l.isChecked head = .ok true) (h : l.link head = .ok k) :
    ∃ e base other, l.HangsBy head e base other ∧
      ((l.isChecked other = .ok true ∧ k = .hop e base other) ∨
        (l.isChecked other = .ok false ∧ ∃ x y, l.actual other = .ok x ∧
          l.adjust e base other x = .ok y ∧ k = .settled y)) := by
  rw [isChecked, if_neg hroot] at hc
  obtain ⟨entry, hentry, hc⟩ := bind_eq_ok.mp hc
  obtain ⟨entry', hentry', h⟩ := bind_eq_ok.mp h
  obtain rfl := Except.ok.inj (hentry.symm.trans hentry')
  cases entry with
  | none => cases hc
  | some e =>
    by_cases hkind : e.kind = .pinned
    · simp only [if_pos hkind] at hc
      cases hc
    simp only [if_neg hkind] at h
    obtain ⟨base, hbase, h⟩ := bind_eq_ok.mp h
    obtain ⟨other, hother, h⟩ := bind_eq_ok.mp h
    obtain ⟨checked, hchecked, h⟩ := bind_eq_ok.mp h
    refine ⟨e, base, other, ⟨hroot, hentry, hkind, hbase, hother⟩, ?_⟩
    cases checked with
    | true =>
      cases h
      exact .inl ⟨hchecked, rfl⟩
    | false =>
      obtain ⟨x, hx, h⟩ := bind_eq_ok.mp h
      obtain ⟨y, hy, h⟩ := bind_eq_ok.mp h
      cases h
      exact .inr ⟨hchecked, x, y, hx, hy, rfl⟩

section Tabs

variable (htabs : l.unit.style = .tabs) (hplain : l.unit.mixedAlignment = false)
include htabs hplain

/-- No rule adds alignment. -/
theorem align_of_adjust {e : OffsetEntry} {base head : Token} {x y : Indentation}
    (h : l.adjust e base head x = .ok y) : y.align = x.align := by
  have hshift : ∀ columns, l.unit.shift x columns = x := fun columns => by
    simp only [IndentUnit.shift, htabs, hplain, Bool.false_eq_true, if_false, ite_self]
  unfold adjust at h
  split at h
  · cases h
    rfl
  · cases h
    rfl
  · cases h
    rw [hshift, ite_self]
  · cases h

/-- **The alignment at the beginning of a chain is that of its end**: none at the root, and what the
blanks of a line that is not checked have. -/
theorem align_of_resolves {head : Token} {x : Indentation} (h : l.Resolves head x)
    (hc : l.isChecked head = .ok true) :
    x.align = 0 ∨ ∃ last y, l.RestsOn head last ∧ l.actual last = .ok y ∧ x.align = y.align := by
  induction h with
  | root => exact .inl rfl
  | settled hroot hlink =>
    obtain ⟨e, base, other, hby, ⟨-, h⟩ | ⟨hother, y, z, hy, hz, h⟩⟩ := link_cases hroot hc hlink
    · cases h
    · cases h
      exact .inr ⟨other, y, ⟨.single ⟨hc, e, base, hby⟩, hother⟩, hy,
        align_of_adjust htabs hplain hz⟩
  | @hop head base other e x y hroot hlink _ hadjust ih =>
    obtain ⟨e', base', other', hby, ⟨hother, h⟩ | ⟨-, y, z, -, -, h⟩⟩ := link_cases hroot hc hlink
    · cases h
      rw [align_of_adjust htabs hplain hadjust]
      refine (ih hother).imp_right fun ⟨last, z, hrest, hz⟩ => ⟨last, z, ⟨?_, hrest.2⟩, hz⟩
      exact .head ⟨hc, e, base, hby⟩ hrest.1
    · cases h

omit hplain in
/-- The alignment of blanks is what follows their tabs. -/
theorem align_of_measure (blanks : List Char) :
    (l.unit.measure blanks).align = (blanks.dropWhile (· == '\t')).length := by
  rw [IndentUnit.measure_of_tabs htabs]

omit hplain in
theorem render_tabs (x : Indentation) :
    l.unit.render x = List.replicate x.width.toNat '\t' ++ List.replicate x.align.toNat ' ' :=
  IndentUnit.render_of_tabs htabs x

end Tabs

end Layout

/-- The unit of a layout is that of the settings. -/
theorem unit_of_settings {d : Document} {s : Settings} {registry : Registry} {l : Layout}
    (h : Layout.ofSettings d s registry = .ok l) :
    IndentUnit.ofValue s.indentUnit s.mixedAlignment = .ok l.unit := by
  obtain ⟨unit, hu, h⟩ := bind_eq_ok.mp h
  split at h
  · cases h
  · obtain ⟨g, -, h⟩ := bind_eq_ok.mp h
    cases h
    exact hu

/-- **With tabs only, spaces come from lines that are not checked.** Where the unit is a tab and
alignment by spaces is off, what an edit puts in place is tabs, unless the chain of its line ends at
a line that is not checked and does not begin with tabs only. Then it is tabs and as many spaces as
that line has characters between its tabs and its head. -/
theorem edits_of_tabs {text : List Char} {d : Document} {s : Settings}
    (hd : Document.read text = .ok d) (htabs : IndentUnit.styleOf? s.indentUnit = some .tabs)
    (hplain : s.mixedAlignment = false) :
    ∃ result, check d s .default = .ok result ∧ ∀ e ∈ result.edits,
      (∀ c ∈ e.text, c = '\t') ∨
      ∃ (l : Layout) (head last : Token) (blanks : List Char) (n : Nat),
        Layout.ofSettings d s .default = .ok l ∧ head ∈ (Heads.ofTokens d.tokens).lineHeads ∧
        e.stop = head.start ∧ l.RestsOn head last ∧ d.leadingText? last = some blanks ∧
        blanks.dropWhile (· == '\t') ≠ [] ∧
        e.text = List.replicate n '\t' ++
          List.replicate (blanks.dropWhile (· == '\t')).length ' ' := by
  obtain ⟨result, hc⟩ := check_ok (s := s) hd descends_default
  refine ⟨result, hc, fun e he => ?_⟩
  obtain ⟨l, root, r, hl, rfl, hground, hr, rfl⟩ := recorded_of_mem_edits hd descends_default hc he
  have hunit := unit_of_settings hl
  rw [IndentUnit.ofValue, htabs, hplain] at hunit
  have hstyle : l.unit.style = .tabs := by rw [← Except.ok.inj hunit]
  have hoff : l.unit.mixedAlignment = false := by rw [← Except.ok.inj hunit]
  obtain ⟨x, hx, hexpected⟩ := hr.expected
  rw [Layout.render_tabs hstyle] at hexpected
  have htext : r.mismatch.edit.text = List.replicate x.width.toNat '\t' ++
      List.replicate x.align.toNat ' ' := hexpected
  have honly : x.align = 0 → ∀ c ∈ r.mismatch.edit.text, c = '\t' := by
    intro h c hc
    rw [htext, h, Int.toNat_zero, List.replicate_zero, List.append_nil] at hc
    exact List.eq_of_mem_replicate hc
  rcases Layout.align_of_resolves hstyle hoff hx hr.checked with h | ⟨last, y, hrest, hy, h⟩
  · exact .inl (honly h)
  obtain ⟨blanks, hblanks, hy⟩ := bind_eq_ok.mp hy
  cases hy
  rw [Layout.align_of_measure hstyle] at h
  by_cases hnone : blanks.dropWhile (· == '\t') = []
  · exact .inl (honly (by rw [h, hnone]; rfl))
  refine .inr ⟨l, r.token, last, blanks, x.width.toNat, hl, ?_, rfl, hrest, ?_, hnone, ?_⟩
  · rw [← hground.graph.heads]
    exact hr.head
  · unfold Layout.leadingText at hblanks
    split at hblanks
    · next blanks' hleading =>
      rw [hleading, Except.ok.inj hblanks]
    · cases hblanks
  · rw [htext, h, Int.toNat_natCast]

/-- The third line hangs on the bold text, which begins on a line of preformatted text. -/
theorem edits_of_tabs_preformatted :
    ∃ (d : Document) (result : CheckResult) (e : Edit) (l : Layout) (head last : Token)
      (blanks : List Char) (n : Nat),
      Document.read "<pre>\n  x</pre><b>\nfoo</b>".toList = .ok d ∧
      IndentUnit.styleOf? (.text "tab") = some .tabs ∧
      check d { indentUnit := .text "tab" } .default = .ok result ∧ e ∈ result.edits ∧
      Layout.ofSettings d { indentUnit := .text "tab" } .default = .ok l ∧ l.RestsOn head last ∧
      d.leadingText? last = some blanks ∧ blanks.dropWhile (· == '\t') ≠ [] ∧
      e.text = List.replicate n '\t' ++
        List.replicate (blanks.dropWhile (· == '\t')).length ' ' := by
  have htab : IndentUnit.styleOf? (.text "tab") = some .tabs := by decide +kernel
  have hedits : Lint.edits? { indentUnit := .text "tab" } "<pre>\n  x</pre><b>\nfoo</b>".toList =
      some [⟨19, 19, ['\t', ' ', ' ']⟩] := by decide +kernel
  obtain ⟨d, result, hd, hc, -, hes⟩ := Lint.exists_of_edits? hedits
  have he : ⟨19, 19, ['\t', ' ', ' ']⟩ ∈ result.edits := hes ▸ List.mem_singleton_self _
  obtain ⟨result', hc', h⟩ := @edits_of_tabs _ d { indentUnit := .text "tab" } hd htab rfl
  obtain rfl := Except.ok.inj (hc.symm.trans hc')
  rcases h _ he with h | ⟨l, head, last, blanks, n, hl, -, -, hrest, hblanks, hne, htext⟩
  · exact absurd (h ' ' (by decide)) (by decide)
  · exact ⟨d, result, _, l, head, last, blanks, n, hd, htab, hc, he, hl, hrest, hblanks, hne, htext⟩

/-- Spaces do come from a line that is not checked, with nothing but tabs asked for. -/
theorem edits_of_tabs_unchecked :
    ∃ (d : Document) (result : CheckResult) (e : Edit),
      Document.read "<pre>\n  x</pre><b>\nfoo</b>".toList = .ok d ∧
      IndentUnit.styleOf? (.text "tab") = some .tabs ∧
      check d { indentUnit := .text "tab" } .default = .ok result ∧ e ∈ result.edits ∧
      ¬ ∀ c ∈ e.text, c = '\t' := by
  have hedits : Lint.edits? { indentUnit := .text "tab" } "<pre>\n  x</pre><b>\nfoo</b>".toList =
      some [⟨19, 19, ['\t', ' ', ' ']⟩] := by decide +kernel
  obtain ⟨d, result, hd, hc, -, hes⟩ := Lint.exists_of_edits? hedits
  exact ⟨d, result, ⟨19, 19, ['\t', ' ', ' ']⟩, hd, by decide +kernel, hc,
    hes ▸ List.mem_singleton_self _, fun h => absurd (h ' ' (by simp)) (by decide)⟩

end MarkupIndent.Margin
