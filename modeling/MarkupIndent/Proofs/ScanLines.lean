import MarkupIndent.Margin.Indenter
import MarkupIndent.Proofs.MaskSteps
import MarkupIndent.Proofs.Reindented

/-!
# What a scan depends on

A scan of embedded source has one record for each line if no mark of the language has a line end in
it. The margins of the lines make no difference to the scan if no mark has a blank in it, so that
marks do not reach into a margin.

* `LexicalRules.Plain`: marks without blanks, as in the languages of web pages.
* `mask_margin`: a margin is masked by blanks and leaves no mark behind.
* `maskedLines_reindented`: with other margins, the lines of masked source are the same but theirs.
* `length_scan`: a scan has as many records as its source has lines.
* `leadingClosers_le`: a line begins with at most as many closing brackets as are open.
* `scan_reindented`: it does not depend on margins.
-/

namespace MarkupIndent.Margin

open Text

/-! ## Marks without blanks -/

/-- A construct that is not ended by nothing or by a blank. -/
def LexicalState.Plain : LexicalState → Prop
  | .blockComment closer | .string closer => closer ≠ [] ∧ Word closer
  | _ => True

/-- What opens a construct is not nothing and no blank, and so is what ends it. -/
def PlainOpeners (openers : List (List Char × LexicalState)) : Prop :=
  ∀ o ∈ openers, o.1 ≠ [] ∧ Word o.1 ∧ o.2.Plain

/-- No mark of a language has a blank in it. -/
structure LexicalRules.Plain (rules : LexicalRules) : Prop where
  openers : PlainOpeners rules.openers
  escape : ∀ c, rules.escape = some c → isBlank c = false

theorem plain_code : LexicalState.code.Plain :=
  trivial

theorem plain_afterLineEnd {state : LexicalState} (h : state.Plain) : state.afterLineEnd.Plain := by
  cases state with
  | code | lineComment => trivial
  | blockComment closer | string closer => exact h

section Mask

variable {openers : List (List Char × LexicalState)} {escape : Option Char}
  (ho : PlainOpeners openers) (he : ∀ c, escape = some c → isBlank c = false)

include ho in
theorem marksOf_of_plain : MarksOf (isBlank · = false) openers := by
  intro o hm
  obtain ⟨-, hmark, hplain⟩ := ho o hm
  refine ⟨hmark, ?_⟩
  cases hstate : o.2 with
  | code | lineComment => simp [LexicalState.closer]
  | blockComment closer | string closer =>
    rw [hstate] at hplain
    exact hplain.2

include ho in
/-- A step leaves a plain construct open. -/
theorem plain_step {s : Spot} (hs : s.state.Plain) (c : Char) (rest : List Char) :
    (s.step openers escape c rest).2.state.Plain := by
  obtain ⟨state, escapes, left⟩ := s
  cases left with
  | succ left => exact hs
  | zero =>
    simp only [Spot.step]
    split
    · exact plain_afterLineEnd hs
    split
    · cases hfind : openers.find? fun o => o.1.isPrefixOf (c :: rest) with
      | none => exact plain_code
      | some o => exact (ho o (List.mem_of_find?_eq_some hfind)).2.2
    split
    · exact plain_code
    · exact hs

theorem countEscapes_of_isBlank (he : ∀ c, escape = some c → isBlank c = false) {c : Char}
    (hc : isBlank c = true) (n : Nat) : countEscapes escape n c = 0 := by
  unfold countEscapes
  split
  · next h =>
    rw [he c (by simpa using h)] at hc
    cases hc
  · rfl

/-- A word without blanks does not begin at a blank. -/
theorem isPrefixOf_blank {word : List Char} (hne : word ≠ []) (hw : Word word) {c : Char}
    (hc : isBlank c = true) (rest : List Char) : word.isPrefixOf (c :: rest) = false := by
  cases word with
  | nil => exact absurd rfl hne
  | cons d word =>
    have hd : (d == c) = false := by
      rw [beq_eq_false_iff_ne]
      rintro rfl
      rw [hw d List.mem_cons_self] at hc
      cases hc
    rw [List.isPrefixOf_cons_cons, hd, Bool.false_and]

include ho he in
/-- Between marks, a blank inside a line is masked by a blank, and what is open stays open. -/
theorem step_blank {state : LexicalState} (hs : state.Plain) {c : Char} (hb : isBlank c = true)
    (hn : c ≠ '\n') (rest : List Char) :
    ∃ m : MaskedChar, isBlank m.char = true ∧ m.char ≠ '\n' ∧
      (⟨state, 0, 0⟩ : Spot).step openers escape c rest = (m, ⟨state, 0, 0⟩) := by
  have hesc := countEscapes_of_isBlank he hb 0
  by_cases hcode : state = .code
  · have hfind : openers.find? (fun o => o.1.isPrefixOf (c :: rest)) = none := by
      rw [List.find?_eq_none]
      intro o hm
      simp [isPrefixOf_blank (ho o hm).1 (ho o hm).2.1 hb]
    exact ⟨⟨c, false⟩, hb, hn, by simp [Spot.step, hn, hcode, hfind, hesc]⟩
  · have hend : state.endsAt 0 (c :: rest) = false := by
      cases state with
      | code | lineComment => rfl
      | blockComment closer => exact isPrefixOf_blank hs.1 hs.2 hb _
      | string closer => simp [LexicalState.endsAt, isPrefixOf_blank hs.1 hs.2 hb]
    exact ⟨⟨' ', false⟩, rfl, by decide, by simp [Spot.step, hn, hcode, hend, hesc]⟩

include ho he in
/-- A margin is masked by blanks, and leaves no mark behind. -/
theorem mask_margin {state : LexicalState} (hs : state.Plain) {w : List Char} (hw : Margin w)
    (rest : List Char) :
    ∃ out : List MaskedChar, Margin (out.map MaskedChar.char) ∧
      (⟨state, 0, 0⟩ : Spot).mask openers escape (w ++ rest) =
        out ++ (⟨state, 0, 0⟩ : Spot).mask openers escape rest := by
  induction w with
  | nil => exact ⟨[], margin_nil, rfl⟩
  | cons c w ih =>
    obtain ⟨hb, hn⟩ := hw c List.mem_cons_self
    obtain ⟨out, hout, hmask⟩ := ih hw.tail
    obtain ⟨m, hm, hmn, hstep⟩ := step_blank ho he hs hb hn (w ++ rest)
    refine ⟨m :: out, fun d hd => ?_, ?_⟩
    · rcases List.mem_cons.mp hd with rfl | hd
      · exact ⟨hm, hmn⟩
      · exact hout d hd
    · rw [List.cons_append, Spot.mask_cons, hstep, hmask, List.cons_append]

/-- Characters without a line end go before the first line. -/
theorem maskedLines_append {out : List MaskedChar} (hout : ∀ m ∈ out, m.char ≠ '\n')
    (literal : Bool) (rest : List MaskedChar) :
    maskedLines literal (out ++ rest) =
      (⟨out.map MaskedChar.char ++ (maskedLines literal rest).1.text, literal⟩,
        (maskedLines literal rest).2) := by
  induction out with
  | nil =>
    cases rest with
    | nil => rfl
    | cons m rest =>
      simp only [List.nil_append, List.map_nil, maskedLines]
      split <;> rfl
  | cons m out ih =>
    have hm := hout m List.mem_cons_self
    have := ih fun n hn => hout n (List.mem_cons_of_mem m hn)
    simp only [List.cons_append, maskedLines, if_neg hm, this, List.map_cons]

theorem maskedLines_margin {out : List MaskedChar} (hout : Margin (out.map MaskedChar.char))
    (literal : Bool) (rest : List MaskedChar) :
    maskedLines literal (out ++ rest) =
      (⟨out.map MaskedChar.char ++ (maskedLines literal rest).1.text, literal⟩,
        (maskedLines literal rest).2) :=
  maskedLines_append (fun m hm => (hout m.char (List.mem_map_of_mem hm)).2) literal rest

end Mask

/-! ## Lines with other margins -/

/-- Two lines of masked source that differ in their margins only. -/
def SameLine (l l' : MaskedLine) : Prop :=
  l.literal = l'.literal ∧ ∃ v w rest, Margin v ∧ Margin w ∧ l.text = v ++ rest ∧
    l'.text = w ++ rest

/-- **Masking texts that differ in their margins gives lines that do.** -/
theorem maskedLines_reindented {rules : LexicalRules} (hr : rules.Plain) {a b : List Char}
    (h : Reindented a b) {s : Spot} (hp : s.state.Plain) (hs : s.Sound (isBlank · = false) a)
    (literal : Bool) :
    (maskedLines literal (s.mask rules.openers rules.escape a)).1 =
        (maskedLines literal (s.mask rules.openers rules.escape b)).1 ∧
      List.Forall₂ SameLine (maskedLines literal (s.mask rules.openers rules.escape a)).2
        (maskedLines literal (s.mask rules.openers rules.escape b)).2 := by
  have ho := marksOf_of_plain hr.openers
  induction h generalizing s literal with
  | nil =>
    rw [Spot.mask_nil]
    exact ⟨rfl, .nil⟩
  | @char c a b hc hab ih =>
    -- No mark tells the texts apart, so the step is the same on both.
    have hstep : s.step rules.openers rules.escape c b = s.step rules.openers rules.escape c a :=
      Spot.step_congr fun _ mark hm =>
        ((Reindented.char hc hab).isPrefixOf (Spot.mem_tested ho hs hm)).symm
    have hm : (s.step rules.openers rules.escape c a).1.char ≠ '\n' := by
      intro h
      rcases s.step_kept c a with hk | hk
      · exact hc (hk.symm.trans h)
      · cases hk.symm.trans h
    obtain ⟨hline, hlines⟩ := ih (s := (s.step rules.openers rules.escape c a).2)
      (plain_step hr.openers hp c a) (Spot.sound_step ho hs) literal
    rw [Spot.mask_cons, Spot.mask_cons, hstep]
    simp only [maskedLines, if_neg hm, hline]
    exact ⟨trivial, hlines⟩
  | @line v w a b hv hw hab ih =>
    have hleft : s.left = 0 := hs.left_eq_zero (by simp [isBlank_newline])
    have hplain := plain_afterLineEnd hp
    have hsound : (⟨s.state.afterLineEnd, 0, 0⟩ : Spot).Sound (isBlank · = false) a := by
      refine ⟨?_, by simp⟩
      have h : (s.step rules.openers rules.escape '\n' (v ++ a)).2.Sound _ _ :=
        Spot.sound_step ho hs
      rw [Spot.step_newline hleft] at h
      exact h.closer
    obtain ⟨out, hout, hmask⟩ := mask_margin hr.openers hr.escape hplain hv a
    obtain ⟨out', hout', hmask'⟩ := mask_margin hr.openers hr.escape hplain hw b
    obtain ⟨hline, hlines⟩ := ih hplain hsound s.state.goesOn
    rw [Spot.mask_cons, Spot.mask_cons, Spot.step_newline hleft, Spot.step_newline hleft,
      countEscapes_of_isBlank hr.escape isBlank_newline, hmask, hmask']
    simp only [maskedLines, if_true, maskedLines_margin hout, maskedLines_margin hout', hline]
    exact ⟨trivial, .cons ⟨rfl, _, _, _, hout, hout', rfl, rfl⟩ hlines⟩

theorem dropWhile_margin {v : List Char} (hv : Margin v) (rest : List Char) :
    (v ++ rest).dropWhile isBlank = rest.dropWhile isBlank := by
  induction v with
  | nil => rfl
  | cons c v ih => simp [(hv c List.mem_cons_self).1, ih hv.tail]

theorem depthAfter_of_isBlank {c : Char} (hc : isBlank c = true) (depth : Nat) :
    depthAfter depth c = depth := by
  have hne : ∀ d : Char, isBlank d = false → (c == d) = false := by
    intro d hd
    rw [beq_eq_false_iff_ne]
    rintro rfl
    rw [hc] at hd
    cases hd
  have hopen : isOpener c = false := by
    simp [isOpener, hne '{' (by decide), hne '(' (by decide), hne '[' (by decide)]
  have hclose : isCloser c = false := by
    simp [isCloser, hne '}' (by decide), hne ')' (by decide), hne ']' (by decide)]
  simp [depthAfter, hopen, hclose]

theorem foldl_depthAfter_margin {v : List Char} (hv : Margin v) (rest : List Char) (depth : Nat) :
    (v ++ rest).foldl depthAfter depth = rest.foldl depthAfter depth := by
  induction v with
  | nil => rfl
  | cons c v ih =>
    rw [List.cons_append, List.foldl_cons, depthAfter_of_isBlank (hv c List.mem_cons_self).1,
      ih hv.tail]

theorem SameLine.trim {l l' : MaskedLine} (h : SameLine l l') : trim l.text = trim l'.text := by
  obtain ⟨-, v, w, rest, hv, hw, h1, h2⟩ := h
  simp only [Text.trim, trimLeft, h1, h2, dropWhile_margin hv, dropWhile_margin hw]

theorem SameLine.depth {l l' : MaskedLine} (h : SameLine l l') (depth : Nat) :
    l.text.foldl depthAfter depth = l'.text.foldl depthAfter depth := by
  obtain ⟨-, v, w, rest, hv, hw, h1, h2⟩ := h
  rw [h1, h2, foldl_depthAfter_margin hv, foldl_depthAfter_margin hw]

/-- The records of lines do not depend on their margins. -/
theorem scanFrom_same {continuations : List (List Char)} {lines lines' : List MaskedLine}
    (h : List.Forall₂ SameLine lines lines') (depth : Nat) (previous : Option Char) :
    scanFrom continuations depth previous lines = scanFrom continuations depth previous lines' := by
  induction h generalizing depth previous with
  | nil => rfl
  | cons hl _ ih => simp only [scanFrom, scanLine, hl.trim, hl.depth, hl.1, ih]

/-! ## The number of records -/

/-- Masked source has a line more than line ends. -/
theorem length_maskedLines (literal : Bool) (out : List MaskedChar) :
    (maskedLines literal out).2.length = out.countP fun m => m.char = '\n' := by
  induction out generalizing literal with
  | nil => rfl
  | cons m rest ih =>
    rw [maskedLines]
    by_cases hm : m.char = '\n'
    · simp [hm, ih]
    · simp [hm, ih]

/-- Masked source has as many line ends as the source. -/
theorem countP_of_masks {source : List Char} {out : List MaskedChar}
    (h : List.Forall₂ Masks source out) :
    (out.countP fun m => m.char = '\n') = source.count '\n' := by
  induction h with
  | nil => rfl
  | @cons c m _ _ hm _ ih =>
    by_cases hc : c = '\n'
    · simp [hm.newline.mpr hc, hc, ih]
    · simp [mt hm.newline.mp hc, hc, ih]

theorem length_scanFrom (continuations : List (List Char)) (depth : Nat) (previous : Option Char)
    (lines : List MaskedLine) :
    (scanFrom continuations depth previous lines).length = lines.length := by
  induction lines generalizing depth previous with
  | nil => rfl
  | cons l rest ih => simp [scanFrom, ih]

theorem leadingClosers_le_scanFrom {continuations : List (List Char)} {depth : Nat}
    {previous : Option Char} {lines : List MaskedLine} {r : LineScan}
    (h : r ∈ scanFrom continuations depth previous lines) : r.leadingClosers ≤ r.depth := by
  induction lines generalizing depth previous with
  | nil => cases h
  | cons line rest ih =>
    rcases List.mem_cons.mp h with rfl | h
    · exact Nat.min_le_right _ _
    · exact ih h

/-! ## Scans -/

section Scan

variable {rules : LexicalRules}

/-- Masking a source keeps its lines. -/
theorem blanked_masks (hr : MarksOf (· ≠ '\n') rules.openers) (source : List Char) :
    List.Forall₂ Masks source (rules.blanked source) := by
  rw [LexicalRules.blanked_eq_walk]
  exact Spot.walk_masks hr (Spot.sound_start (source ++ []))

/-- **A scan has one record for each line** of its source. -/
theorem length_scan (hr : MarksOf (· ≠ '\n') rules.openers) (source : List Char) :
    (scan rules source).length = source.count '\n' + 1 := by
  rw [scan, length_scanFrom, List.length_cons, length_maskedLines]
  exact congrArg (· + 1) (countP_of_masks (blanked_masks hr source))

/-- **A line begins with at most as many closing brackets as are open** where it starts. -/
theorem leadingClosers_le {source : List Char} {r : LineScan} (h : r ∈ scan rules source) :
    r.leadingClosers ≤ r.depth :=
  leadingClosers_le_scanFrom h

/-- A mark without blanks has no line end. -/
theorem LexicalRules.Plain.marksOf (hr : rules.Plain) : MarksOf (· ≠ '\n') rules.openers :=
  (marksOf_of_plain hr.openers).mono fun c hc h => absurd (h ▸ hc) (by decide)

/-- **A scan does not depend on margins.** -/
theorem scan_reindented (hr : rules.Plain) {v w a b : List Char} (hv : Margin v) (hw : Margin w)
    (h : Reindented a b) : scan rules (v ++ a) = scan rules (w ++ b) := by
  obtain ⟨out, hout, hmask⟩ := mask_margin hr.openers hr.escape plain_code hv a
  obtain ⟨out', hout', hmask'⟩ := mask_margin hr.openers hr.escape plain_code hw b
  obtain ⟨hline, hlines⟩ :=
    maskedLines_reindented (s := ⟨.code, 0, 0⟩) hr h plain_code (Spot.sound_start a) false
  have ha : mask rules.openers rules.escape .code 0 0 (v ++ a) = _ := hmask
  have hb : mask rules.openers rules.escape .code 0 0 (w ++ b) = _ := hmask'
  unfold scan
  simp only [ha, hb, maskedLines_margin hout, maskedLines_margin hout', hline]
  refine scanFrom_same (.cons ?_ hlines) 0 none
  exact ⟨rfl, _, _, _, hout, hout', rfl, rfl⟩

end Scan

/-! ## The languages of web pages -/

/-- Rules are plain if no mark and no escape character is blank. -/
theorem plain_of_madeOf {rules : LexicalRules} (hr : rules.MadeOf (isBlank · = false))
    (he : ∀ c, rules.escape = some c → isBlank c = false) : rules.Plain where
  openers := by
    intro o ho
    rcases LexicalRules.mem_openers.mp ho with ⟨m, hm, hne, rfl⟩ | ⟨q, hq, hne, hne', rfl⟩ |
      ⟨m, hm, hne, rfl⟩
    · exact ⟨hne, hr.lineComments m hm, trivial⟩
    · exact ⟨hne, (hr.blockComments q hq).1, hne', (hr.blockComments q hq).2⟩
    · exact ⟨hne, hr.strings m hm, hne, hr.strings m hm⟩
  escape := he

theorem madeOf_scriptRules : scriptRules.MadeOf (isBlank · = false) := by
  decide +kernel

theorem madeOf_styleRules : styleRules.MadeOf (isBlank · = false) := by
  decide +kernel

theorem madeOf_sassRules : sassRules.MadeOf (isBlank · = false) := by
  decide +kernel

theorem plain_scriptRules : scriptRules.Plain :=
  plain_of_madeOf madeOf_scriptRules (by rintro c ⟨⟩; rfl)

theorem plain_styleRules : styleRules.Plain :=
  plain_of_madeOf madeOf_styleRules (by rintro c ⟨⟩; rfl)

theorem plain_sassRules : sassRules.Plain :=
  plain_of_madeOf madeOf_sassRules (by rintro c ⟨⟩; rfl)

theorem openers_scriptRules : scriptRules.openers =
    [("//".toList, .lineComment), ("/*".toList, .blockComment "*/".toList),
      ("'".toList, .string "'".toList), ("\"".toList, .string "\"".toList),
      ([Char.ofNat 0x60], .string [Char.ofNat 0x60])] := by
  unfold LexicalRules.openers longestFirst
  rw [List.mergeSort_of_pairwise (by decide), List.mergeSort_of_pairwise (by decide),
    List.mergeSort_of_pairwise (by decide)]
  decide +kernel

/-- A scan of script source, with the marks that open something written out. -/
theorem scan_scriptRules (source : List Char) : scan scriptRules source =
    let lines := maskedLines false (mask [("//".toList, .lineComment),
      ("/*".toList, .blockComment "*/".toList), ("'".toList, .string "'".toList),
      ("\"".toList, .string "\"".toList), ([Char.ofNat 0x60], .string [Char.ofNat 0x60])]
        scriptRules.escape .code 0 0 source)
    scanFrom scriptRules.continuations 0 none (lines.1 :: lines.2) := by
  rw [scan, openers_scriptRules]

end MarkupIndent.Margin
