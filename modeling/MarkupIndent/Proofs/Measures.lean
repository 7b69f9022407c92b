import Mathlib.Data.List.TakeWhile
import MarkupIndent.Margin.Unit

/-!
# Rendering and measuring

An indentation is rendered as blanks, and blanks are measured as an indentation. Measuring may
forget what the blanks are made of and never how many they are. With tabs, rendering forgets
nothing; with spaces, it forgets where the width ends and the alignment begins. So what was measured
is rendered as it stood just where the unit would have written it so. Levels and columns are added,
each to its own part, in any order.

* `measure_of_spaces`, `measure_of_tabs`, and the same for `render` and `shift`: what a unit does,
  by its style.
* `measure_render_of_spaces`, `measure_render_of_tabs`: an indentation that is rendered and
  measured.
* `render_measure_iff_of_spaces`, `render_measure_iff_of_tabs`: the blanks that come back.
* `indent_indent`, `shift_shift`, `indent_shift`: levels and columns after one another.
* `measure_render_inverse`: **measuring and rendering are inverse** on the blanks of the unit.
-/

namespace MarkupIndent.Margin

namespace IndentUnit

/-- Tabs with spaces behind them. -/
def tabsThenSpaces (j k : Nat) : List Char :=
  List.replicate j '\t' ++ List.replicate k ' '

theorem takeWhile_tabsThenSpaces (j k : Nat) :
    (tabsThenSpaces j k).takeWhile (· == '\t') = List.replicate j '\t' := by
  rw [tabsThenSpaces, List.takeWhile_append_of_pos (by simp)]
  cases k <;> simp [List.replicate_succ]

theorem dropWhile_tabsThenSpaces (j k : Nat) :
    (tabsThenSpaces j k).dropWhile (· == '\t') = List.replicate k ' ' := by
  rw [tabsThenSpaces, List.dropWhile_append_of_pos (by simp)]
  cases k <;> simp [List.replicate_succ]

section Measures

variable {u : IndentUnit} {b : Indentation} {text : List Char} {count : Nat} {m n : Int}

/-! ## Spaces -/

theorem measure_of_spaces (hu : u.style = .spaces count) (text : List Char) :
    u.measure text = ⟨text.length, 0⟩ := by
  rw [measure, hu]

theorem render_of_spaces (hu : u.style = .spaces count) (b : Indentation) :
    u.render b = List.replicate (b.width.toNat + b.align.toNat) ' ' := by
  rw [render, char, hu, List.replicate_append_replicate]

theorem shift_of_spaces (hu : u.style = .spaces count) (b : Indentation) (hn : 0 ≤ n) :
    u.shift b n = ⟨b.width + n, b.align⟩ := by
  unfold shift
  split
  · next hle => simp [Int.le_antisymm hle hn]
  · rw [hu]

/-- The alignment is measured as width. -/
theorem measure_render_of_spaces (hu : u.style = .spaces count) (hwidth : 0 ≤ b.width)
    (halign : 0 ≤ b.align) : u.measure (u.render b) = ⟨b.width + b.align, 0⟩ := by
  rw [measure_of_spaces hu, render_of_spaces hu, List.length_replicate, Int.natCast_add,
    Int.toNat_of_nonneg hwidth, Int.toNat_of_nonneg halign]

theorem render_measure_of_spaces (hu : u.style = .spaces count) (text : List Char) :
    u.render (u.measure text) = List.replicate text.length ' ' := by
  rw [render_of_spaces hu, measure_of_spaces hu]
  rfl

theorem render_measure_iff_of_spaces (hu : u.style = .spaces count) :
    u.render (u.measure text) = text ↔ ∀ c ∈ text, c = ' ' := by
  rw [render_measure_of_spaces hu, eq_comm, List.eq_replicate_iff]
  simp

/-! ## Tabs -/

/-- Alignment begins behind the leading tabs, whatever stands there. -/
theorem measure_of_tabs (hu : u.style = .tabs) (text : List Char) : u.measure text =
    ⟨(text.takeWhile (· == '\t')).length, (text.dropWhile (· == '\t')).length⟩ := by
  have hsplit : (text.takeWhile (· == '\t')).length + (text.dropWhile (· == '\t')).length =
      text.length := by
    rw [← List.length_append, List.takeWhile_append_dropWhile]
  rw [measure, hu, Indentation.mk.injEq]
  exact ⟨rfl, by omega⟩

theorem render_of_tabs (hu : u.style = .tabs) (b : Indentation) :
    u.render b = tabsThenSpaces b.width.toNat b.align.toNat := by
  rw [render, char, hu, tabsThenSpaces]

/-- Tabs reach a column by alignment, if they may be mixed with spaces, and stay otherwise. -/
theorem shift_of_tabs (hu : u.style = .tabs) (b : Indentation) (hn : 0 ≤ n) :
    u.shift b n = if u.mixedAlignment then ⟨b.width, b.align + n⟩ else b := by
  unfold shift
  split
  · next hle => simp [Int.le_antisymm hle hn]
  · rw [hu]

theorem measure_render_of_tabs (hu : u.style = .tabs) (hwidth : 0 ≤ b.width)
    (halign : 0 ≤ b.align) : u.measure (u.render b) = b := by
  rw [measure_of_tabs hu, render_of_tabs hu, takeWhile_tabsThenSpaces, dropWhile_tabsThenSpaces,
    List.length_replicate, List.length_replicate, Int.toNat_of_nonneg hwidth,
    Int.toNat_of_nonneg halign]

theorem render_measure_of_tabs (hu : u.style = .tabs) (text : List Char) :
    u.render (u.measure text) =
      tabsThenSpaces (text.takeWhile (· == '\t')).length (text.dropWhile (· == '\t')).length := by
  rw [render_of_tabs hu, measure_of_tabs hu]
  rfl

theorem render_measure_iff_of_tabs (hu : u.style = .tabs) :
    u.render (u.measure text) = text ↔ ∃ j k, text = tabsThenSpaces j k := by
  rw [render_measure_of_tabs hu]
  constructor
  · intro h
    exact ⟨_, _, h.symm⟩
  · rintro ⟨j, k, rfl⟩
    rw [takeWhile_tabsThenSpaces, dropWhile_tabsThenSpaces, List.length_replicate,
      List.length_replicate]

/-! ## Either -/

/-- No blank is lost and none is added. -/
theorem length_render_measure (u : IndentUnit) (text : List Char) :
    (u.render (u.measure text)).length = text.length := by
  cases hu : u.style with
  | tabs =>
    rw [render_measure_of_tabs hu, tabsThenSpaces, List.length_append, List.length_replicate,
      List.length_replicate, ← List.length_append, List.takeWhile_append_dropWhile]
  | spaces count => rw [render_measure_of_spaces hu, List.length_replicate]

theorem indent_zero (u : IndentUnit) (b : Indentation) : u.indent b 0 = b := by
  simp [indent]

theorem indent_indent (u : IndentUnit) (b : Indentation) (m n : Int) :
    u.indent (u.indent b m) n = u.indent b (m + n) := by
  simp only [indent, Int.add_mul, Int.add_assoc]

theorem shift_shift (u : IndentUnit) (b : Indentation) (hm : 0 ≤ m) (hn : 0 ≤ n) :
    u.shift (u.shift b m) n = u.shift b (m + n) := by
  have hmn := Int.add_nonneg hm hn
  cases hu : u.style with
  | spaces count =>
    rw [shift_of_spaces hu b hm, shift_of_spaces hu _ hn, shift_of_spaces hu b hmn, Int.add_assoc]
  | tabs =>
    rw [shift_of_tabs hu b hm, shift_of_tabs hu _ hn, shift_of_tabs hu b hmn]
    split
    · rw [Int.add_assoc]
    · rfl

/-- Levels and columns go to different parts, or they are added up. -/
theorem indent_shift (u : IndentUnit) (b : Indentation) (m : Int) (hn : 0 ≤ n) :
    u.indent (u.shift b n) m = u.shift (u.indent b m) n := by
  cases hu : u.style with
  | spaces count =>
    rw [shift_of_spaces hu b hn, shift_of_spaces hu _ hn]
    simp only [indent, Int.add_right_comm]
  | tabs =>
    rw [shift_of_tabs hu b hn, shift_of_tabs hu _ hn]
    split <;> rfl

/-- **Measuring and rendering are inverse** on the blanks of the unit, and keep the length of any
text. Levels and columns add up and commute. -/
theorem measure_render_inverse (u : IndentUnit) (b : Indentation) (m n : Int) (text : List Char)
    (hwidth : 0 ≤ b.width) (halign : 0 ≤ b.align) (hm : 0 ≤ m) (hn : 0 ≤ n) :
    (u.render (u.measure text)).length = text.length ∧
    (u.style = .tabs → u.measure (u.render b) = b ∧
      (u.render (u.measure text) = text ↔
        ∃ j k, text = List.replicate j '\t' ++ List.replicate k ' ')) ∧
    (∀ count, u.style = .spaces count → u.measure (u.render b) = ⟨b.width + b.align, 0⟩ ∧
      (u.render (u.measure text) = text ↔ ∀ c ∈ text, c = ' ')) ∧
    u.indent (u.indent b m) n = u.indent b (m + n) ∧
    u.shift (u.shift b m) n = u.shift b (m + n) ∧
    u.indent (u.shift b n) m = u.shift (u.indent b m) n :=
  ⟨length_render_measure u text,
    fun hu => ⟨measure_render_of_tabs hu hwidth halign, render_measure_iff_of_tabs hu⟩,
    fun _ hu => ⟨measure_render_of_spaces hu hwidth halign, render_measure_iff_of_spaces hu⟩,
    indent_indent u b m n, shift_shift u b hm hn, indent_shift u b m hn⟩

/-- A space before a tab does not come back. -/
theorem measure_render_inverse_mixed :
    IndentUnit.ofValue (.text "tab") true = .ok ⟨.tabs, true⟩ ∧
    measure ⟨.tabs, true⟩ (render ⟨.tabs, true⟩ ⟨2, 3⟩) = ⟨2, 3⟩ ∧
    render ⟨.tabs, true⟩ (measure ⟨.tabs, true⟩ ['\t', ' ', '\t']) ≠ ['\t', ' ', '\t'] := by
  obtain ⟨-, htabs, -⟩ := measure_render_inverse ⟨.tabs, true⟩ ⟨2, 3⟩ 0 0 ['\t', ' ', '\t']
    (by decide) (by decide) (by decide) (by decide)
  obtain ⟨hmeasure, -⟩ := htabs rfl
  exact ⟨by decide +kernel, hmeasure, by decide⟩

end Measures

end IndentUnit

end MarkupIndent.Margin
