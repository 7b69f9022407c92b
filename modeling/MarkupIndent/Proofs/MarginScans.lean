import MarkupIndent.Proofs.Lines
import MarkupIndent.Proofs.ScanLines

/-!
# Scans of other margins

The lines of a source can be given other margins, each its own. If no mark of the language and no
escape character is blank, the scan of the source is the same before and after. It is so for every
choice of lines: at the beginning of a line outside of comments and strings nothing is open that a
blank could end, and inside of them blanks are blanked like everything else.

* `remargin`: a text with other margins at some of its lines.
* `reindented_remargin`: it is the same text up to margins.
* `scan_remargined`: **a scan does not depend on the margins of lines.**
-/

namespace MarkupIndent.Margin

open Text

/-! ## Other margins -/

/-- A line with another margin, if it gets one. -/
def remarginLine (margin : Option (List Char)) (line : List Char) : List Char :=
  match margin with
  | some blanks => blanks ++ trimLeft line
  | none => line

/-- A text with other margins at some of its lines, which are counted from zero. -/
def remargin (margin : Nat → Option (List Char)) (text : List Char) : List Char :=
  ['\n'].intercalate ((text.splitOn '\n').mapIdx fun n line => remarginLine (margin n) line)

/-- A line with another margin has the same rest. -/
theorem exists_remarginLine {margin : Option (List Char)} (hm : ∀ w, margin = some w → Margin w)
    {line : List Char} (hline : '\n' ∉ line) :
    ∃ v w rest, Margin v ∧ Margin w ∧ line = v ++ rest ∧ remarginLine margin line = w ++ rest := by
  cases margin with
  | none => exact ⟨[], [], line, margin_nil, margin_nil, rfl, rfl⟩
  | some w =>
    have hsplit : line = line.takeWhile isBlank ++ trimLeft line :=
      List.takeWhile_append_dropWhile.symm
    have hmargin : Margin (line.takeWhile isBlank) := fun c hc =>
      ⟨List.mem_takeWhile_imp hc, fun h =>
        hline (h ▸ (List.takeWhile_prefix isBlank).subset hc)⟩
    exact ⟨_, w, trimLeft line, hmargin, hm w rfl, hsplit, rfl⟩

/-- Lines with other margins, each behind a line end, are the same text up to margins. -/
theorem reindented_intercalate {lines : List (List Char)} (hlines : ∀ line ∈ lines, '\n' ∉ line)
    {margin : Nat → Option (List Char)} (hm : ∀ n w, margin n = some w → Margin w) :
    Reindented ('\n' :: ['\n'].intercalate lines) ('\n' :: ['\n'].intercalate
      (lines.mapIdx fun n line => remarginLine (margin n) line)) := by
  induction lines generalizing margin with
  | nil => exact .refl _
  | cons line lines ih =>
    obtain ⟨v, w, rest, hv, hw, hline, hother⟩ :=
      exists_remarginLine (hm 0) (hlines line List.mem_cons_self)
    cases lines with
    | nil =>
      rw [List.mapIdx_cons, List.mapIdx_nil, List.intercalate_singleton,
        List.intercalate_singleton, hother, hline]
      exact .line hv hw (.refl rest)
    | cons next lines =>
      have hlater := ih (fun l hl => hlines l (List.mem_cons_of_mem line hl)) fun n => hm (n + 1)
      rw [List.mapIdx_cons] at hlater
      rw [List.mapIdx_cons, List.mapIdx_cons, List.intercalate_cons_cons,
        List.intercalate_cons_cons, hother, hline, List.append_assoc, List.append_assoc,
        List.append_assoc, List.append_assoc]
      exact .line hv hw ((Reindented.refl rest).append hlater)

/-- **Other margins leave the same text up to margins**, the first line behind its own. -/
theorem reindented_remargin {margin : Nat → Option (List Char)}
    (hm : ∀ n w, margin n = some w → Margin w) (text : List Char) :
    ∃ v w a b, text = v ++ a ∧ remargin margin text = w ++ b ∧ Margin v ∧ Margin w ∧
      Reindented a b := by
  have hlines : ∀ line ∈ text.splitOn '\n', '\n' ∉ line := fun _ => newline_not_mem_of_mem_splitOn
  have h := reindented_intercalate hlines hm
  rw [List.intercalate_splitOn] at h
  generalize hafter : '\n' :: ['\n'].intercalate _ = after at h
  cases h with
  | char hc _ => exact absurd rfl hc
  | line hv hw hab => exact ⟨_, _, _, _, rfl, (List.cons.inj hafter).2, hv, hw, hab⟩

/-- **A scan does not depend on the margins of lines.** If no mark of the language and no escape
character is blank, any lines of a source can be given any other blanks to begin with, and the
records of all its lines stay the same. -/
theorem scan_remargined {rules : LexicalRules} (hr : rules.MadeOf (isBlank · = false))
    (he : ∀ c, rules.escape = some c → isBlank c = false) {margin : Nat → Option (List Char)}
    (hm : ∀ n w, margin n = some w → Margin w) (source : List Char) :
    scan rules (remargin margin source) = scan rules source := by
  obtain ⟨v, w, a, b, rfl, hother, hv, hw, hab⟩ := reindented_remargin hm source
  rw [hother]
  exact (scan_reindented (plain_of_madeOf hr he) hv hw hab).symm

/-- Other margins for the first line and for the third. -/
def firstAndThird : Nat → Option (List Char)
  | 0 => some [' ']
  | 2 => some ['\t', ' ']
  | _ => none

theorem margin_firstAndThird (n : Nat) (w : List Char) (h : firstAndThird n = some w) :
    Margin w := by
  unfold firstAndThird at h
  split at h <;> cases h <;> decide

/-- A string over two lines and a comment with a quote in it, in each of the languages of web
pages. -/
theorem scan_remargined_string :
    (scriptRules.MadeOf (isBlank · = false) ∧ styleRules.MadeOf (isBlank · = false) ∧
      sassRules.MadeOf (isBlank · = false)) ∧
    remargin firstAndThird "f(`\n  a`,\n/* ' */ b)".toList =
      " f(`\n  a`,\n\t /* ' */ b)".toList ∧
    (scan scriptRules "f(`\n  a`,\n/* ' */ b)".toList).map LineScan.continuesLiteral =
      [false, true, false] ∧
    ∀ rules ∈ [scriptRules, styleRules, sassRules],
      scan rules " f(`\n  a`,\n\t /* ' */ b)".toList =
        scan rules "f(`\n  a`,\n/* ' */ b)".toList := by
  have hother : remargin firstAndThird "f(`\n  a`,\n/* ' */ b)".toList =
      " f(`\n  a`,\n\t /* ' */ b)".toList := by decide +kernel
  refine ⟨⟨madeOf_scriptRules, madeOf_styleRules, madeOf_sassRules⟩, hother, ?_, fun rules hr => ?_⟩
  · rw [scan_scriptRules]
    decide +kernel
  rw [← hother]
  simp only [List.mem_cons, List.not_mem_nil, or_false] at hr
  rcases hr with rfl | rfl | rfl
  · exact scan_remargined madeOf_scriptRules (by rintro c ⟨⟩; rfl) margin_firstAndThird _
  · exact scan_remargined madeOf_styleRules (by rintro c ⟨⟩; rfl) margin_firstAndThird _
  · exact scan_remargined madeOf_sassRules (by rintro c ⟨⟩; rfl) margin_firstAndThird _

end MarkupIndent.Margin
