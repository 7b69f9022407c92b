import MarkupIndent.Proofs.Lines
import MarkupIndent.Proofs.ScanLines

/-!
# Scanning line by line

A mark without a line end does not reach over one, and whether a source has such a mark at a place
is settled by the end of the line. So masking never looks beyond the line it is on: what it makes of
a source is the same whatever lines follow, and so are the records of the lines.

* `walk_newline`: masking up to a line end does not depend on what follows it.
* `blanked_append_newline`: a source and the lines after it are masked one after the other.
* `maskedLines_append_newline`, `scanFrom_prefix_append`: lines and records of the first part.
* `scan_line_by_line`: **a scan goes line by line**, and never comes back to an earlier one.
-/

namespace MarkupIndent.Margin

open Text

/-! ## Masking up to a line end -/

/-- A mark without a line end stands before a line end or nowhere. -/
theorem isPrefixOf_append_newline {mark text : List Char} (hm : '\n' ∉ mark) (rest : List Char) :
    mark.isPrefixOf (text ++ '\n' :: rest) = mark.isPrefixOf text := by
  induction mark generalizing text with
  | nil => simp
  | cons c mark ih =>
    have hc : (c == '\n') = false := beq_eq_false_iff_ne.mpr fun h => hm (h ▸ List.mem_cons_self)
    cases text with
    | nil => simp [List.isPrefixOf, hc]
    | cons d text =>
      simp only [List.cons_append, List.isPrefixOf_cons_cons,
        ih fun h => hm (List.mem_cons_of_mem c h)]

section Walk

variable {openers : List (List Char × LexicalState)} {escape : Option Char}
  (ho : MarksOf (· ≠ '\n') openers)
include ho

/-- **Masking does not look over a line end.** -/
theorem walk_newline {s : Spot} (text rest : List Char) (hs : s.Sound (· ≠ '\n') text) :
    s.walk openers escape text ('\n' :: rest) = s.walk openers escape text [] := by
  refine (Spot.walk_congr fun before c after htext _ mark hm => ?_).symm
  rw [List.append_nil] at hm ⊢
  -- The spot behind what is before is sound, so the marks it looks for have no line end.
  have hsound : (s.walk openers escape before (c :: after)).2.Sound (· ≠ '\n') (c :: after) :=
    Spot.sound_walk ho (htext ▸ hs)
  exact (isPrefixOf_append_newline
    (fun h => Spot.mem_tested ho hsound hm '\n' h rfl) rest).symm

end Walk

/-! ## Lines and records -/

/-- The lines of masked source before a line end and behind it. -/
theorem maskedLines_append_newline {m : MaskedChar} (hm : m.char = '\n') (literal : Bool)
    (out rest : List MaskedChar) :
    maskedLines literal (out ++ m :: rest) = ((maskedLines literal out).1,
      (maskedLines literal out).2 ++
        (maskedLines m.literal rest).1 :: (maskedLines m.literal rest).2) := by
  induction out generalizing literal with
  | nil => simp only [List.nil_append, maskedLines, if_pos hm]
  | cons n out ih =>
    rw [List.cons_append, maskedLines, maskedLines]
    by_cases hn : n.char = '\n'
    · simp only [if_pos hn, ih, List.cons_append]
    · simp only [if_neg hn, ih]

/-- Later lines do not change the records of earlier ones. -/
theorem scanFrom_prefix_append (continuations : List (List Char)) (depth : Nat)
    (previous : Option Char) (lines later : List MaskedLine) :
    scanFrom continuations depth previous lines <+:
      scanFrom continuations depth previous (lines ++ later) := by
  induction lines generalizing depth previous with
  | nil => exact List.nil_prefix
  | cons line lines ih => exact List.cons_prefix_cons.mpr ⟨rfl, ih _ _⟩

section Scan

variable {rules : LexicalRules} (hr : MarksOf (· ≠ '\n') rules.openers)
include hr

/-- **A source and the lines after it are masked one after the other.** -/
theorem blanked_append_newline (a b : List Char) : ∃ (m : MaskedChar) (rest : List MaskedChar),
    m.char = '\n' ∧ rules.blanked (a ++ '\n' :: b) = rules.blanked a ++ m :: rest := by
  have hwalk : Spot.start.walk rules.openers rules.escape a ('\n' :: b) = _ :=
    walk_newline hr a b (Spot.sound_start a)
  have hsound : (Spot.start.walk rules.openers rules.escape a ('\n' :: b)).2.Sound (· ≠ '\n')
      ('\n' :: b) := Spot.sound_walk hr (Spot.sound_start _)
  rw [LexicalRules.blanked_append, Spot.mask_cons,
    Spot.step_newline (hsound.left_eq_zero (by simp)), hwalk, ← LexicalRules.blanked_eq_walk]
  exact ⟨_, _, rfl, rfl⟩

/-- **A scan never comes back to an earlier line.** -/
theorem scan_prefix_append (a b : List Char) : scan rules a <+: scan rules (a ++ '\n' :: b) := by
  obtain ⟨m, rest, hm, hmask⟩ := blanked_append_newline hr a b
  show scanFrom rules.continuations 0 none
      ((maskedLines false (rules.blanked a)).1 :: (maskedLines false (rules.blanked a)).2) <+:
    scanFrom rules.continuations 0 none ((maskedLines false (rules.blanked (a ++ '\n' :: b))).1 ::
      (maskedLines false (rules.blanked (a ++ '\n' :: b))).2)
  rw [hmask, maskedLines_append_newline hm, ← List.cons_append]
  exact scanFrom_prefix_append ..

end Scan

/-- **A scan goes line by line.** If no mark of the language has a line end in it, a source keeps
its length and its line ends when it is masked, and changes only by spaces; it has one record for
each line, with no more closing brackets than are open; and the records of a source stay the same
whatever lines come after it. -/
theorem scan_line_by_line {rules : LexicalRules} (hr : rules.MadeOf (· ≠ '\n')) (a b : List Char) :
    List.Forall₂ Masks a (rules.blanked a) ∧
    (scan rules a).length = (a.splitOn '\n').length ∧
    (∀ r ∈ scan rules a, r.leadingClosers ≤ r.depth) ∧
    scan rules a <+: scan rules (a ++ '\n' :: b) :=
  ⟨blanked_masks hr.marksOf a, (length_scan hr.marksOf a).trans (length_splitOn a).symm,
    fun _ => leadingClosers_le, scan_prefix_append hr.marksOf a b⟩

/-- Two brackets before a line comment, and a string that the source does not end: the records of
these two lines do not depend on what ends the string. -/
theorem scan_line_by_line_string :
    scriptRules.MadeOf (· ≠ '\n') ∧
    scan scriptRules "f(\x7b // (\n`[".toList =
      [⟨0, 0, false, false⟩, ⟨2, 0, false, false⟩] ∧
    [⟨0, 0, false, false⟩, ⟨2, 0, false, false⟩] <+:
      scan scriptRules ("f(\x7b // (\n`[".toList ++ '\n' :: "`\x7d)".toList) := by
  have hmarks : scriptRules.MadeOf (· ≠ '\n') := by decide +kernel
  have hscan : scan scriptRules "f(\x7b // (\n`[".toList =
      [⟨0, 0, false, false⟩, ⟨2, 0, false, false⟩] := by
    rw [scan_scriptRules]
    decide +kernel
  obtain ⟨-, -, -, hscans⟩ := scan_line_by_line hmarks "f(\x7b // (\n`[".toList "`\x7d)".toList
  exact ⟨hmarks, hscan, hscan ▸ hscans⟩

end MarkupIndent.Margin
