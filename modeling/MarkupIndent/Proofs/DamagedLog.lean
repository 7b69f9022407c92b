import MarkupIndent.Proofs.AuditTrail
import MarkupIndent.Proofs.JsonEndings

/-!
# The audit log after damage

What an event adds to a log begins where the log ends. If the last line of the log was never
finished, the event is added to that line, and no JSON value spells the two together: the quote
that opens the first name of the event either closes a string, or the event is inside brackets that
nothing closes. A line that was finished does no harm to the lines after it, with two exceptions: a
query that looks at fields is not answered if one of the records has none, and no query is answered
if a line has a number of too many digits.

* `finished`, `unfinished`: a log up to its last line end, and what stands after it.
* `stray_spelling`: the line of an event is an ending that no value goes on with.
* `record?_after`: what is read of the line of an event after other text.
* `lines_append`: the lines of a log after an event.
* `select_behind_blanks`, `select_unreadable_event`, `select_torn`: what a query finds on the last
  line, with an event and without.
* `read_append`: **an event is the last record that is read, if the line before it was finished, all
  lines can be read and all records have the fields that are asked for**.
* `read_append_lost`: one log for each way in which it is not.
-/

namespace MarkupIndent.Text

/-! ## Line ends in two parts of a text -/

theorem unifyLineEnds_append (before : List Char) {after : List Char}
    (h : after.head? ≠ some '\n') :
    unifyLineEnds (before ++ after) = unifyLineEnds before ++ unifyLineEnds after := by
  fun_induction unifyLineEnds before with
  | case1 => rfl
  | case2 rest ih => rw [List.cons_append, List.cons_append, unifyLineEnds, ih, List.cons_append]
  | case3 c rest hne ih =>
    have hpair : ∀ more, c = '\r' → rest ++ after = '\n' :: more → False := by
      intro more hc heq
      cases rest with
      | nil => exact h (by rw [← List.nil_append after, heq]; rfl)
      | cons d rest => exact hne rest hc (by rw [(List.cons.inj heq).1])
    rw [List.cons_append, unifyLineEnds, ih, List.cons_append]
    exact hpair

/-- A text that ends in a line end does so when its line ends are unified. -/
theorem unifyLineEnds_ends {before : List Char} {c : Char} (hc : c = '\n' ∨ c = '\r') :
    ∃ lines, unifyLineEnds (before ++ [c]) = lines ++ ['\n'] := by
  fun_induction unifyLineEnds before with
  | case1 => rcases hc with rfl | rfl <;> exact ⟨[], rfl⟩
  | case2 rest ih =>
    obtain ⟨lines, hlines⟩ := ih
    refine ⟨'\n' :: lines, ?_⟩
    rw [List.cons_append, List.cons_append, unifyLineEnds, hlines, List.cons_append]
  | case3 d rest hne ih =>
    obtain ⟨lines, hlines⟩ := ih
    rw [List.cons_append]
    by_cases hpair : d = '\r' ∧ rest ++ [c] = ['\n']
    · exact ⟨[], by rw [hpair.1, hpair.2]; rfl⟩
    · rw [unifyLineEnds, hlines]
      · exact ⟨_ :: lines, rfl⟩
      · intro more hd heq
        cases rest with
        | nil => exact hpair ⟨hd, by rw [heq, (List.cons.inj heq).2]⟩
        | cons d' rest => exact hne rest hd (by rw [(List.cons.inj heq).1])

end MarkupIndent.Text

namespace MarkupIndent.Json

open Text

/-! ## Blanks in JSON -/

/-- The character is neither a part of a number or a word, nor a mark, nor of use in a string. -/
structure Inert (c : Char) : Prop where
  inner : isInner c = false
  mark : isMark c = false
  quote : c ≠ '"'
  bracket : c ≠ '['
  hex : hexValue? c = none
  escape : escaped? c = none
  unit : c ≠ 'u'

theorem inert_brace : Inert '\x7b' :=
  ⟨rfl, rfl, by decide, by decide, rfl, rfl, by decide⟩

theorem inert_of_blank {c : Char} (h : isBlank c = true) : Inert c := by
  have hne : ∀ d : Char, isBlank d = false → c ≠ d := by
    rintro d hd rfl
    rw [h] at hd
    cases hd
  have hcode := h
  simp only [isBlank, Bool.or_eq_true, Bool.and_eq_true, decide_eq_true_eq, beq_iff_eq] at hcode
  refine ⟨?_, ?_, hne _ rfl, hne _ rfl, ?_, ?_, hne _ rfl⟩
  · have hletter : isAsciiLetter c = false ∧ isAsciiDigit c = false := by
      simp only [isAsciiLetter, isAsciiDigit, Bool.or_eq_false_iff, Bool.and_eq_false_iff,
        decide_eq_false_iff_not]
      omega
    simp [isInner, hletter.1, hletter.2, hne '.' rfl, hne '+' rfl, hne '-' rfl]
  · simp [isMark, hne ',' rfl, hne ':' rfl, hne ']' rfl, hne '\x7d' rfl]
  · simp only [hexValue?]
    rw [if_neg (by omega), if_neg (by omega), if_neg (by omega)]
  · simp [escaped?, shortEscapes, hne '/' rfl, Ne.symm (hne 'b' rfl), Ne.symm (hne 't' rfl),
      Ne.symm (hne 'n' rfl), Ne.symm (hne 'f' rfl), Ne.symm (hne 'r' rfl), Ne.symm (hne '"' rfl),
      Ne.symm (hne '\\' rfl)]

theorem isSpace_of_blank {c : Char} (h : isSpace c = true) : isBlank c = true := by
  simp only [isSpace, Bool.or_eq_true, beq_iff_eq] at h
  rcases h with ((rfl | rfl) | rfl) | rfl <;> rfl

section Blanks

variable {blanks : List Char} (hblanks : ∀ c ∈ blanks, isBlank c = true) (tail : List Char)
include hblanks

/-- Blanks begin with a character of no use, and so does what opens a table. -/
theorem inert_head : ∀ c ∈ (blanks ++ '\x7b' :: tail).head?, Inert c := by
  cases blanks with
  | nil =>
    rintro c ⟨⟩
    exact inert_brace
  | cons d rest =>
    rintro c ⟨⟩
    exact inert_of_blank (hblanks _ List.mem_cons_self)

/-- What is left of blanks is a blank that is no space, or what comes after them. -/
theorem skipSpace_blanks : skipSpace (blanks ++ '\x7b' :: tail) = '\x7b' :: tail ∨
    ∃ c rest, skipSpace (blanks ++ '\x7b' :: tail) = c :: rest ∧ isBlank c = true := by
  induction blanks with
  | nil => exact .inl rfl
  | cons c rest ih =>
    obtain ⟨hc, hrest⟩ := List.forall_mem_cons.mp hblanks
    rw [List.cons_append]
    cases hspace : isSpace c with
    | true =>
      rw [skipSpace, List.dropWhile_cons_of_pos hspace]
      exact ih hrest
    | false => exact .inr ⟨c, _, skipSpace_cons hspace _, hc⟩

/-- A string that goes on into a table ends at the quote of the first name. -/
theorem unitsAfter_blanks {seen : List Nat} {found : List Nat × List Char}
    (h : unitsAfter seen (blanks ++ '\x7b' :: '"' :: tail) = some found) : found.2 = tail := by
  induction blanks generalizing seen with
  | nil =>
    cases h
    rfl
  | cons c rest ih =>
    obtain ⟨hc, hrest⟩ := List.forall_mem_cons.mp hblanks
    have hslash : c ≠ '\\' := by
      rintro rfl
      cases hc
    rw [List.cons_append, unitsAfter_cons (inert_of_blank hc).quote hslash] at h
    split at h
    · cases h
    · exact ih hrest h

omit hblanks in
/-- Digits that are not all there spell no unit. -/
theorem unit?_overlap {z : List Char} (hz : ∀ c ∈ z.head?, Inert c) {rest more : List Char}
    {a b c d : Char} (hrest : rest.length < 4) (h : rest ++ z = a :: b :: c :: d :: more) :
    unit? a b c d = none := by
  have hnone : ∀ x ∈ [a, b, c, d], hexValue? x = none → unit? a b c d = none := by
    intro x hx hhex
    simp only [List.mem_cons, List.not_mem_nil, or_false] at hx
    rcases hx with rfl | rfl | rfl | rfl <;> simp [unit?, hhex]
  rcases List.append_eq_append_iff.mp (show rest ++ z = [a, b, c, d] ++ more from h) with
    ⟨digits, hdigits, rfl⟩ | ⟨digits, rfl, -⟩
  · cases digits with
    | nil =>
      rw [List.append_nil] at hdigits
      rw [← hdigits] at hrest
      exact absurd hrest (by simp)
    | cons x digits =>
      exact hnone x (by rw [hdigits]; simp) (hz x rfl).hex
  · rw [List.length_append] at hrest
    exact absurd hrest (by simp)

omit hblanks in
/-- A character of no use after a backslash, or too few digits, end no string. -/
theorem unitsAfter_slash {seen : List Nat} {c : Char} {rest : List Char}
    (hescape : escaped? c = none)
    (hunit : ∀ a b c' d more, c = 'u' → rest = a :: b :: c' :: d :: more → unit? a b c' d = none) :
    unitsAfter seen ('\\' :: c :: rest) = none := by
  by_cases hfour : c = 'u' ∧ ∃ a b c' d more, rest = a :: b :: c' :: d :: more
  · obtain ⟨rfl, a, b, c', d, more, rfl⟩ := hfour
    rw [unitsAfter, hunit a b c' d more rfl rfl]
    rfl
  · rw [unitsAfter, hescape]
    · rfl
    · exact fun a b c' d more hc hrest => hfour ⟨hc, a, b, c', d, more, hrest⟩

/-- **A string that is not closed swallows the beginning of a table** up to its first quote. -/
theorem unitsAfter_swallows {seen : List Nat} {text : List Char} {found : List Nat × List Char}
    (hopen : unitsAfter seen text = none)
    (h : unitsAfter seen (text ++ (blanks ++ '\x7b' :: '"' :: tail)) = some found) :
    found.2 = tail := by
  have hhead := inert_head hblanks ('"' :: tail)
  have hend := fun seen => @unitsAfter_blanks blanks hblanks tail seen found
  have hne : blanks ++ '\x7b' :: '"' :: tail ≠ [] := by simp
  generalize blanks ++ '\x7b' :: '"' :: tail = z at hhead hend hne h
  fun_induction unitsAfter seen text with
  | case1 => exact hend _ h
  | case2 => cases hopen
  | case3 seen a b c d rest ih =>
    simp only [List.cons_append, unitsAfter] at h
    obtain ⟨n, hn, h⟩ := Option.bind_eq_some_iff.mp h
    rw [hn] at hopen
    exact ih n hopen h
  | case4 seen c rest hshort ih =>
    cases hescape : escaped? c with
    | none =>
      rw [List.cons_append, List.cons_append, unitsAfter_slash hescape] at h
      · cases h
      · intro a b c' d more hc heq
        refine unit?_overlap hhead ?_ heq
        -- with four digits the unit would have been read
        rcases rest with _ | ⟨a', _ | ⟨b', _ | ⟨c'', _ | ⟨d', rest⟩⟩⟩⟩
        · simp
        · simp
        · simp
        · simp
        · exact absurd rfl (hshort a' b' c'' d' rest hc)
    | some n =>
      have hu : c ≠ 'u' := by
        rintro rfl
        cases hescape
      rw [List.cons_append, List.cons_append, unitsAfter, hescape] at h
      · rw [hescape] at hopen
        exact ih n hopen h
      · exact fun a b c' d rest hc => absurd hc hu
  | case5 seen c rest hquote hunit hescape hc =>
    have hslash : c ≠ '\\' := by
      rintro rfl
      exact absurd hc (by decide)
    rw [List.cons_append, unitsAfter_cons hquote hslash, if_pos hc] at h
    cases h
  | case6 seen c rest hquote hunit hescape hc ih =>
    by_cases hslash : c = '\\'
    · subst hslash
      cases rest with
      | cons d rest => exact absurd rfl (hescape d rest rfl)
      | nil =>
        obtain ⟨d, more, rfl⟩ := List.exists_cons_of_ne_nil hne
        have hd := hhead d rfl
        rw [List.cons_append, List.nil_append, unitsAfter_slash hd.escape
          fun _ _ _ _ _ hu => absurd hu hd.unit] at h
        cases h
    · rw [List.cons_append, unitsAfter_cons hquote hslash, if_neg hc] at h
      exact ih hopen h

/-- **A table behind blanks is an ending that no value goes on with**, if it is a value by itself and
begins with a name that is no mark. -/
theorem stray_table {v : Value} (hhead : ∀ c ∈ (skipSpace tail).head?, isMark c = false)
    (hne : skipSpace tail ≠ [])
    (hv : ∃ bound, valueWithin bound ('\x7b' :: '"' :: tail) = .ok (v, [])) :
    Stray (blanks ++ '\x7b' :: '"' :: tail) := by
  have hinert := inert_head hblanks ('"' :: tail)
  have hskip := skipSpace_blanks hblanks ('"' :: tail)
  have hfirst : ∃ c rest, skipSpace (blanks ++ '\x7b' :: '"' :: tail) = c :: rest ∧ Inert c := by
    rcases hskip with h | ⟨c, rest, h, hc⟩
    · exact ⟨_, _, h, inert_brace⟩
    · exact ⟨c, rest, h, inert_of_blank hc⟩
  obtain ⟨c, rest, hfirst, hc⟩ := hfirst
  refine ⟨fun d hd => (hinert d hd).inner, ?_, ?_, ?_, fun room => ?_, fun text t rest hopen h => ?_⟩
  · rw [hfirst]
    exact List.cons_ne_nil c rest
  · rw [Unmarked, hfirst]
    rintro d ⟨⟩
    exact hc.mark
  · rw [hfirst]
    exact fun h => hc.quote (Option.some.inj h)
  · rcases hskip with h | ⟨d, more, h, hd⟩
    · rw [h]
      obtain ⟨bound, hv⟩ := hv
      exact (valueWithin_whole hv room).imp_right fun hroom => ⟨v, [], hroom, rfl⟩
    · left
      rw [h]
      cases room with
      | zero => rfl
      | succ room =>
        have hbrace : d ≠ '\x7b' := by
          rintro rfl
          cases hd
        have hd := inert_of_blank hd
        rw [valueWithin_plain _ _ (by rintro _ ⟨⟩; exact ⟨hd.quote, hd.bracket, hbrace⟩)]
        exact plain_malformed (by rintro _ ⟨⟩; exact hd.inner)
  · obtain ⟨p, hp, heq⟩ := Option.map_eq_some_iff.mp h
    cases heq
    rw [string?, Option.map_eq_none_iff] at hopen
    rw [unitsAfter_swallows hblanks tail hopen hp]
    exact ⟨hhead, hne⟩

end Blanks

end MarkupIndent.Json

namespace MarkupIndent.Audit

open Json Text

/-! ## The line of an event after other text -/

/-- **The line of an event is an ending that no value goes on with**, behind blanks. -/
theorem stray_spelling {e : Event} (he : e.isExact = true) {blanks : List Char}
    (hblanks : ∀ c ∈ blanks, isBlank c = true) : Stray (blanks ++ e.spelling) := by
  obtain ⟨tail, htail⟩ : ∃ tail, e.spelling = '\x7b' :: '"' :: 'a' :: tail := by
    rw [Event.spelling, record_eq]
    exact ⟨_, rfl⟩
  have hnil : IsAfter [] := fun _ h => by cases h
  have hread := valueWithin_spell (isExact_record he) _ (Nat.le_refl _) hnil
  rw [List.append_nil, ← Event.spelling, htail] at hread
  rw [htail]
  have hspace : skipSpace ('a' :: tail) = 'a' :: tail := skipSpace_cons rfl tail
  refine stray_table hblanks ('a' :: tail) (v := e.record) ?_ ?_ ⟨_, hread⟩
  · rw [hspace]
    rintro c ⟨⟩
    rfl
  · rw [hspace]
    exact List.cons_ne_nil _ _

theorem trimLeft_eq_nil {text : List Char} : trimLeft text = [] ↔ text.all isBlank = true := by
  rw [trimLeft, List.dropWhile_eq_nil_iff, List.all_eq_true]

/-- What is trimmed at the end of a text is blank. -/
theorem exists_blanks (text : List Char) :
    ∃ blanks, (∀ c ∈ blanks, isBlank c = true) ∧ trimLeft text = trim text ++ blanks :=
  ⟨(trimLeft text).rtakeWhile isBlank, fun _ h => List.mem_rtakeWhile_imp h,
    List.rdropWhile_append_rtakeWhile.symm⟩

/-- What is left of a text that is not blank begins with no space. -/
theorem skipSpace_trim {text : List Char} (h : text.all isBlank = false) :
    trim text ≠ [] ∧ skipSpace (trim text) ≠ [] := by
  obtain ⟨blanks, hblanks, htrim⟩ := exists_blanks text
  have hne : trimLeft text ≠ [] := by
    rw [ne_eq, trimLeft_eq_nil, h]
    exact Bool.false_ne_true
  obtain ⟨c, rest, hc⟩ := List.exists_cons_of_ne_nil hne
  have hblank : isBlank c = false := by
    have hhead := List.head?_dropWhile_not isBlank text
    rwa [← trimLeft, hc] at hhead
  rw [hc] at htrim
  cases hleft : trim text with
  | nil =>
    rw [hleft, List.nil_append] at htrim
    rw [hblanks c (htrim ▸ List.mem_cons_self)] at hblank
    cases hblank
  | cons d more =>
    rw [hleft] at htrim
    obtain ⟨rfl, -⟩ := List.cons.inj htrim
    have hspace : isSpace c = false := by
      by_contra hspace
      rw [isSpace_of_blank ((Bool.not_eq_false _).mp hspace)] at hblank
      cases hblank
    rw [skipSpace_cons hspace]
    exact ⟨List.cons_ne_nil _ _, List.cons_ne_nil _ _⟩

theorem record?_of_blank {text : List Char} (h : text.all isBlank = true) :
    record? text = .ok none := by
  rw [record?, trim, trimLeft_eq_nil.mpr h]
  rfl

/-- **The line of an event is its record, if there is nothing but blanks before it.** Otherwise it
holds no record, and cannot be read if what stands before it cannot. -/
theorem record?_after (text : List Char) {e : Event} (he : e.isExact = true) :
    record? (text ++ e.spelling) =
      if text.all isBlank then .ok (some e.record) else (record? text).map fun _ => none := by
  rw [record?_append]
  split
  · next h =>
    rw [trimLeft_eq_nil.mpr h, List.nil_append, Event.spelling, read_spell (isExact_record he)]
    rfl
  · next h =>
    obtain ⟨hne, hspace⟩ := skipSpace_trim ((Bool.not_eq_true _).mp h)
    obtain ⟨blanks, hblanks, htrim⟩ := exists_blanks text
    obtain ⟨hlong, hshort⟩ := read_stray (stray_spelling he hblanks) hspace
    have hrecord : record? text = recordOf (Json.read (trim text)) := by
      simp only [record?, List.isEmpty_iff, if_neg hne]
    rw [hrecord, htrim, List.append_assoc]
    cases hread : Json.read (trim text) with
    | ok record =>
      rw [hshort fun digits => by rw [hread]; simp]
      rfl
    | error refusal =>
      cases refusal with
      | malformed =>
        rw [hshort fun digits => by rw [hread]; simp]
        rfl
      | longNumber digits =>
        rw [hlong digits hread]
        rfl

/-! ## The last line of a log -/

/-- What stands after the last line end of a log. -/
def unfinished (log : List Char) : List Char :=
  log.rtakeWhile fun c => c != '\n' && c != '\r'

/-- A log up to its last line end. -/
def finished (log : List Char) : List Char :=
  log.rdropWhile fun c => c != '\n' && c != '\r'

theorem finished_append_unfinished (log : List Char) : finished log ++ unfinished log = log :=
  List.rdropWhile_append_rtakeWhile

theorem not_mem_unfinished (log : List Char) :
    '\n' ∉ unfinished log ∧ '\r' ∉ unfinished log := by
  constructor <;> intro h <;> cases List.mem_rtakeWhile_imp h

/-- A text after a finished line begins a line of its own. -/
theorem exists_lines (log : List Char) : ∃ earlier, ∀ text : List Char, text.head? ≠ some '\n' →
    lines (finished log ++ text) = earlier ++ lines text := by
  by_cases hnil : finished log = []
  · exact ⟨[], fun text _ => by rw [hnil]; rfl⟩
  · obtain ⟨before, hbefore⟩ : ∃ before, unifyLineEnds (finished log) = before ++ ['\n'] := by
      have hlast := List.rdropWhile_last_not _ log hnil
      rw [← List.dropLast_append_getLast hnil]
      refine unifyLineEnds_ends ?_
      simpa only [finished, Bool.and_eq_true, bne_iff_ne, ne_eq, not_and_or, not_not] using hlast
    refine ⟨splitLines before, fun text htext => ?_⟩
    rw [lines, unifyLineEnds_append _ htext, hbefore, List.append_assoc, List.singleton_append,
      splitLines_append_newline, lines]

/-- **An event is added to the line that was not finished.** -/
theorem lines_append (log : List Char) {e : Event} (he : e.isExact = true) :
    ∃ earlier, lines (finished log) = earlier ++ [[]] ∧
      lines log = earlier ++ [unfinished log] ∧
      lines (log ++ e.line) = earlier ++ [unfinished log ++ e.spelling, []] := by
  obtain ⟨earlier, hearlier⟩ := exists_lines log
  obtain ⟨hn, hr⟩ := not_mem_unfinished log
  have hn' : '\n' ∉ unfinished log ++ e.spelling := by
    rw [List.mem_append, not_or]
    exact ⟨hn, not_mem_spelling he rfl⟩
  have hr' : '\r' ∉ unfinished log ++ e.spelling ++ ['\n'] := by
    simp only [List.mem_append, List.mem_singleton, not_or]
    exact ⟨⟨hr, not_mem_spelling he rfl⟩, by decide⟩
  have hlog : log ++ e.line = finished log ++ (unfinished log ++ e.spelling ++ ['\n']) := by
    rw [Event.line, List.append_assoc, ← List.append_assoc (finished log),
      finished_append_unfinished]
  refine ⟨earlier, ?_, ?_, ?_⟩
  · rw [← List.append_nil (finished log), hearlier [] (by simp)]
    rfl
  · have hline := hearlier (unfinished log) fun h => hn (List.mem_of_mem_head? h)
    rw [finished_append_unfinished] at hline
    rw [hline, lines, unifyLineEnds_eq hr, splitLines_of_not_mem hn]
  · have hhead : (unfinished log ++ e.spelling ++ ['\n']).head? ≠ some '\n' := by
      obtain ⟨tail, htail⟩ := List.head?_eq_some_iff.mp (ends_spelling (e := e)).1
      rw [List.head?_append_of_ne_nil _ (by simp [htail])]
      exact fun h => hn' (List.mem_of_mem_head? h)
    rw [hlog, hearlier _ hhead, lines, unifyLineEnds_eq hr', splitLines_append_newline,
      splitLines_of_not_mem hn']
    rfl

/-! ## Queries -/

/-- A query looks at the fields of records. -/
def Query.Filters (q : Query) : Prop :=
  q.since ≠ none ∨ q.document ≠ none

/-- A record has fields. -/
def HasFields (record : Value) : Prop :=
  ∃ fields, record = .table fields

/-- No line has a number of too many digits. -/
def Readable (log : List (List Char)) : Prop :=
  ∀ line ∈ log, ∃ record, record? line = .ok record

/-- A line holds a record. -/
def Holds (log : List (List Char)) (record : Value) : Prop :=
  ∃ line ∈ log, record? line = .ok (some record)

theorem selects_ok {q : Query} {record : Value} (h : q.Filters → HasFields record) :
    ∃ keep, q.selects record = .ok keep := by
  obtain ⟨since, limit, document⟩ := q
  by_cases hf : Query.Filters ⟨since, limit, document⟩
  · obtain ⟨fields, rfl⟩ := h hf
    unfold Query.selects
    split <;> exact ⟨_, rfl⟩
  · rw [Query.Filters, not_or, not_not, not_not] at hf
    obtain ⟨rfl, rfl⟩ := hf
    exact ⟨true, rfl⟩

theorem selects_error {q : Query} {record : Value} (hf : q.Filters) (h : ¬ HasFields record) :
    q.selects record = .error .notTable := by
  have hnone : (q.since.isNone && q.document.isNone) = false := by
    rw [Bool.and_eq_false_iff, Option.isNone_eq_false_iff, Option.isNone_eq_false_iff]
    exact hf.imp Option.isSome_iff_ne_none.mpr Option.isSome_iff_ne_none.mpr
  cases record with
  | table fields => exact absurd ⟨fields, rfl⟩ h
  | _ => simp only [Query.selects, hnone, Bool.false_eq_true, if_false]

theorem find?_none {q : Query} {line : List Char} (h : record? line = .ok none) :
    q.find? line = .ok none := by
  rw [Query.find?, h]
  rfl

theorem find?_error {q : Query} {line : List Char} {fault : LogFault}
    (h : record? line = .error fault) : q.find? line = .error fault := by
  rw [Query.find?, h]
  rfl

theorem find?_ok {q : Query} {line : List Char} {record : Option Value}
    (hline : record? line = .ok record) (h : q.Filters → ∀ r ∈ record, HasFields r) :
    ∃ found, q.find? line = .ok found := by
  rw [Query.find?, hline]
  cases record with
  | none => exact ⟨none, rfl⟩
  | some r =>
    obtain ⟨keep, hkeep⟩ := selects_ok fun hf => h hf r rfl
    refine ⟨if keep then some r else none, ?_⟩
    simp only [bind, Except.bind, hkeep]

theorem select_singleton (q : Query) (line : List Char) :
    q.select [line] = (q.find? line).map Option.toList := by
  rw [Query.select]
  cases q.find? line with
  | error fault => rfl
  | ok found => simp [bind, Except.bind, Query.select, Except.map]

theorem select_ok {q : Query} {log : List (List Char)} (hlog : Readable log)
    (h : q.Filters → ∀ record, Holds log record → HasFields record) :
    ∃ kept, q.select log = .ok kept := by
  induction log with
  | nil => exact ⟨[], rfl⟩
  | cons line rest ih =>
    obtain ⟨⟨record, hrecord⟩, hrest⟩ := List.forall_mem_cons.mp hlog
    obtain ⟨found, hfound⟩ := find?_ok hrecord fun hf r hr =>
      h hf r ⟨line, List.mem_cons_self, hr ▸ hrecord⟩
    obtain ⟨kept, hkept⟩ := ih hrest fun hf r ⟨other, hother, hr⟩ =>
      h hf r ⟨other, List.mem_cons_of_mem line hother, hr⟩
    rw [Query.select, hfound, hkept]
    exact ⟨_, rfl⟩

/-- A line that cannot be read stops a query. -/
theorem select_unreadable (q : Query) {log : List (List Char)} (h : ¬ Readable log) :
    ∃ fault, q.select log = .error fault := by
  induction log with
  | nil => exact absurd (fun _ hline => by cases hline) h
  | cons line rest ih =>
    rw [Query.select]
    cases hfound : q.find? line with
    | error fault => exact ⟨fault, rfl⟩
    | ok found =>
      have hline : ∃ record, record? line = .ok record := by
        cases hrecord : record? line with
        | ok record => exact ⟨record, rfl⟩
        | error fault =>
          rw [find?_error hrecord] at hfound
          cases hfound
      obtain ⟨fault, hfault⟩ := ih fun hrest => h (List.forall_mem_cons.mpr ⟨hline, hrest⟩)
      rw [hfault]
      exact ⟨fault, rfl⟩

/-- A record without fields stops a query that looks at fields. -/
theorem select_notTable {q : Query} (hf : q.Filters) {log : List (List Char)}
    (hlog : Readable log) (h : ∃ record, Holds log record ∧ ¬ HasFields record) :
    q.select log = .error .notTable := by
  induction log with
  | nil =>
    obtain ⟨record, ⟨line, hmem, -⟩, -⟩ := h
    cases hmem
  | cons line rest ih =>
    obtain ⟨⟨found, hfound⟩, hrest⟩ := List.forall_mem_cons.mp hlog
    rw [Query.select]
    by_cases hfields : ∀ r ∈ found, HasFields r
    · obtain ⟨kept, hkept⟩ := find?_ok (q := q) hfound fun _ => hfields
      obtain ⟨record, ⟨other, hother, hholds⟩, hnot⟩ := h
      have hother := (List.mem_cons.mp hother).resolve_left fun heq => by
        rw [heq, hfound] at hholds
        exact hnot (hfields record (Except.ok.inj hholds))
      rw [hkept, ih hrest ⟨record, ⟨other, hother, hholds⟩, hnot⟩]
      rfl
    · obtain ⟨r, hr, hnot⟩ : ∃ r ∈ found, ¬ HasFields r := by simpa using hfields
      obtain rfl := hr
      have hline : q.find? line = .error .notTable := by
        simp only [Query.find?, hfound, bind, Except.bind, selects_error hf hnot]
      rw [hline]
      rfl

theorem select_limit (q : Query) (limit : Int) (log : List (List Char)) :
    { q with limit := limit }.select log = q.select log := by
  induction log with
  | nil => rfl
  | cons line rest ih =>
    rw [Query.select, Query.select, ih]
    rfl

theorem lastItems_concat {α : Type} {n : Nat} (hn : 0 < n) (items : List α) (item : α) :
    lastItems n (items ++ [item]) = lastItems (n - 1) items ++ [item] := by
  rw [lastItems, lastItems, List.length_append, List.length_singleton,
    List.drop_append_of_le_length (by omega)]
  congr 2
  omega

/-- The last line is queried after the others. -/
theorem select_concat (q : Query) (earlier : List (List Char)) (line : List Char) :
    q.select (earlier ++ [line]) =
      q.select earlier >>= fun found => (q.find? line).map (found ++ ·.toList) := by
  rw [select_append, select_singleton]
  cases q.find? line <;> rfl

theorem Holds.append {earlier : List (List Char)} {record : Value} (h : Holds earlier record)
    (later : List (List Char)) : Holds (earlier ++ later) record := by
  obtain ⟨line, hline, hrecord⟩ := h
  exact ⟨line, List.mem_append_left later hline, hrecord⟩

theorem Readable.concat {earlier : List (List Char)} {line : List Char} :
    Readable (earlier ++ [line]) ↔ Readable earlier ∧ ∃ record, record? line = .ok record := by
  rw [Readable, List.forall_mem_append, List.forall_mem_singleton]
  rfl

section Event

variable {e : Event} (he : e.isExact = true) {q : Query} {earlier : List (List Char)}
  {text : List Char}
include he

/-- Behind blanks an event is found after all that is found without it. -/
theorem select_behind_blanks (hwants : q.Wants e) (h : text.all isBlank = true) {kept : List Value}
    (hkept : q.select earlier = .ok kept) : q.select (earlier ++ [text]) = .ok kept ∧
      q.select (earlier ++ [text ++ e.spelling]) = .ok (kept ++ [e.record]) := by
  have hevent : q.find? (text ++ e.spelling) = .ok (some e.record) := by
    rw [Query.find?, record?_after text he, if_pos h]
    simp only [bind, Except.bind, selects_record, decide_eq_true hwants, if_true]
  constructor
  · rw [select_concat, hkept, find?_none (record?_of_blank h)]
    simp [bind, Except.bind, Except.map]
  · rw [select_concat, hkept, hevent]
    rfl

/-- A line that cannot be read stops a query in the same way whether an event is added to the last
line or not. -/
theorem select_unreadable_event (h : ¬ Readable (earlier ++ [text])) :
    ∃ fault, q.select (earlier ++ [text]) = .error fault ∧
      q.select (earlier ++ [text ++ e.spelling]) = .error fault := by
  cases hselect : q.select earlier with
  | error fault =>
    have hconcat (line : List Char) : q.select (earlier ++ [line]) = .error fault := by
      rw [select_concat, hselect]
      rfl
    exact ⟨fault, hconcat text, hconcat (text ++ e.spelling)⟩
  | ok kept =>
    have hearlier : Readable earlier := by
      by_contra hbad
      obtain ⟨fault, hfault⟩ := select_unreadable q hbad
      rw [hfault] at hselect
      cases hselect
    cases hlast : record? text with
    | ok record => exact absurd (Readable.concat.mpr ⟨hearlier, record, hlast⟩) h
    | error fault =>
      have hblank : ¬ text.all isBlank = true := fun hblank => by
        rw [record?_of_blank hblank] at hlast
        cases hlast
      have hafter : record? (text ++ e.spelling) = .error fault := by
        rw [record?_after text he, if_neg hblank, hlast]
        rfl
      refine ⟨fault, ?_, ?_⟩
      · rw [select_concat, hselect, find?_error hlast]
        rfl
      · rw [select_concat, hselect, find?_error hafter]
        rfl

/-- An event that is added to a line that was not finished is not found, and nor is the line. -/
theorem select_torn (hread : Readable (earlier ++ [text])) (h : text.all isBlank = false) :
    q.select (earlier ++ [text ++ e.spelling]) = q.select (earlier ++ [[]]) := by
  obtain ⟨-, record, hrecord⟩ := Readable.concat.mp hread
  have hafter : record? (text ++ e.spelling) = .ok none := by
    rw [record?_after text he, h, if_neg Bool.false_ne_true, hrecord]
    rfl
  rw [select_concat, select_concat, find?_none hafter, find?_none (record?_of_blank rfl)]

end Event

/-- A query for at least one record. -/
theorem read_eq {q : Query} (h : 1 ≤ q.limit) (log : List Char) :
    read q log = (q.select (lines log)).map (lastItems q.limit.toNat) :=
  if_neg (by omega)

/-- A query for one record less. -/
theorem read_pred {q : Query} (h : 1 ≤ q.limit) {log : List Char} {kept : List Value}
    (hkept : q.select (lines log) = .ok kept) :
    read { q with limit := q.limit - 1 } log = .ok (lastItems (q.limit.toNat - 1) kept) := by
  have hpred : (q.limit - 1).toNat = q.limit.toNat - 1 := by omega
  rw [read, select_limit, hkept]
  split
  · next hlow =>
    change q.limit - 1 < 1 at hlow
    have hzero : q.limit.toNat - 1 = 0 := by omega
    rw [hzero, lastItems, Nat.sub_zero, List.drop_length]
  · rw [← hpred]
    rfl

/-- **An event is read back after damage, with three exceptions.** If all lines of the log can be
read, the last one was finished and every record has the fields that the query looks at, a query
that wants the event finds it last, after the records that it would find for a limit one lower. A
number of too many digits in any line stops the query, with the event as without it. A record
without fields stops it too, if the query looks at fields. A line that was not finished takes the
event with it: the log reads as if neither were there. -/
theorem read_append (log : List Char) {e : Event} (he : e.isExact = true) {q : Query}
    (hlimit : 1 ≤ q.limit) (hwants : q.Wants e) :
    ∃ log', append? log e = some log' ∧
      (Readable (lines log) → (unfinished log).all isBlank = true →
        (q.Filters → ∀ record, Holds (lines log) record → HasFields record) →
        ∃ earlier record, read { q with limit := q.limit - 1 } log = .ok earlier ∧
          read q log' = .ok (earlier ++ [record]) ∧ e.Recorded record) ∧
      (¬ Readable (lines log) → ∃ fault, read q log = .error fault ∧ read q log' = .error fault) ∧
      (Readable (lines log) → (unfinished log).all isBlank = true → q.Filters →
        (∃ record, Holds (lines log) record ∧ ¬ HasFields record) →
        read q log' = .error .notTable) ∧
      (Readable (lines log) → (unfinished log).all isBlank = false →
        read q log' = read q (finished log)) := by
  obtain ⟨earlier, hfinished, hlines, hlines'⟩ := lines_append log he
  have hlog' : q.select (lines (log ++ e.line)) =
      q.select (earlier ++ [unfinished log ++ e.spelling]) := by
    rw [hlines', List.append_cons, select_concat_nil]
  rw [hlines]
  refine ⟨log ++ e.line, by rw [append?, line?_of_exact he]; rfl, fun hread h hfields => ?_,
    fun hread => ?_, fun hread h hf hnot => ?_, fun hread h => ?_⟩
  · obtain ⟨kept, hkept⟩ := select_ok (Readable.concat.mp hread).1
      fun hf record hrecord => hfields hf record (hrecord.append [unfinished log])
    obtain ⟨hbefore, hafter⟩ := select_behind_blanks he hwants h hkept
    refine ⟨lastItems (q.limit.toNat - 1) kept, e.record, ?_, ?_, recorded_record he⟩
    · exact read_pred hlimit (hlines ▸ hbefore)
    · rw [read_eq hlimit, hlog', hafter, Except.map, lastItems_concat (by omega)]
  · obtain ⟨fault, hbefore, hafter⟩ := select_unreadable_event he (q := q) hread
    refine ⟨fault, ?_, ?_⟩
    · rw [read_eq hlimit, hlines, hbefore]
      rfl
    · rw [read_eq hlimit, hlog', hafter]
      rfl
  · obtain ⟨record, ⟨line, hline, hrecord⟩, hno⟩ := hnot
    have hline : line ∈ earlier := by
      rw [List.mem_append, List.mem_singleton] at hline
      refine hline.resolve_right fun heq => ?_
      rw [heq, record?_of_blank h] at hrecord
      cases hrecord
    rw [read_eq hlimit, hlog', select_concat,
      select_notTable hf (Readable.concat.mp hread).1 ⟨record, ⟨line, hline, hrecord⟩, hno⟩]
    rfl
  · rw [read_eq hlimit, read_eq hlimit, hlog', select_torn he hread h, hfinished]

/-- A log with a line that is cut off, a blank line, a list and a last line of blanks still gives
back the event after them. -/
theorem read_append_blanks :
    let log : List Char := "\x7b\"ti\n\n[1]\r\n\t ".toList
    let q : Query := ⟨none, 1, none⟩
    quotedEvent.isExact = true ∧ 1 ≤ q.limit ∧ q.Wants quotedEvent ∧ Readable (lines log) ∧
      (unfinished log).all isBlank = true ∧
      ∃ log' record, append? log quotedEvent = some log' ∧ read q log' = .ok [record] ∧
        quotedEvent.Recorded record := by
  intro log q
  have he : quotedEvent.isExact = true := by decide
  have hlimit : 1 ≤ q.limit := by decide
  have hwants : q.Wants quotedEvent := by decide
  have hblank : (unfinished log).all isBlank = true := by decide
  have hlines : lines log = ["\x7b\"ti".toList, [], "[1]".toList, "\t ".toList] := by decide
  have hreadable : Readable (lines log) := by
    rw [hlines]
    simp only [Readable, List.forall_mem_cons]
    exact ⟨⟨_, rfl⟩, ⟨_, rfl⟩, ⟨_, rfl⟩, ⟨_, rfl⟩, fun _ h => by cases h⟩
  have hfilters : ¬ q.Filters := fun h => h.elim (absurd rfl) (absurd rfl)
  obtain ⟨log', hlog', hlast, -⟩ := read_append log he hlimit hwants
  obtain ⟨earlier, record, hearlier, hread, hrecord⟩ :=
    hlast hreadable hblank (absurd · hfilters)
  cases hearlier
  exact ⟨he, hlimit, hwants, hreadable, hblank, log', record, hlog', hread, hrecord⟩

/-- A number of too many digits cannot be read. -/
theorem record?_longNumber {n : Nat} (h : isShort n = false) :
    record? (spellNatural n) = .error (.longNumber (spellNatural n).length) := by
  have hblank : ∀ c ∈ spellNatural n, isBlank c = false := by
    intro c hc
    by_contra hblank
    have hinner := (inert_of_blank ((Bool.not_eq_false _).mp hblank)).inner
    rw [isInner_digit (isAsciiDigit_spellNatural hc)] at hinner
    cases hinner
  obtain ⟨c, digits, hc, hdigit⟩ := exists_digit n
  have hfirst : isBlank c = false := hblank c (hc ▸ List.mem_cons_self)
  have htrim : trim (spellNatural n) = spellNatural n := by
    have hlast := List.getLast?_eq_some_getLast (l := spellNatural n) (by simp [hc])
    exact (trim_append (by rw [hc]; rfl) hfirst hlast (hblank _ (List.getLast_mem _)) :
      trim ([] ++ spellNatural n) = trimLeft [] ++ spellNatural n)
  have hspace : isSpace c = false := by
    by_contra hspace
    rw [isSpace_of_blank ((Bool.not_eq_false _).mp hspace)] at hfirst
    cases hfirst
  have hnumber := number_long h
  have hread : Json.read (spellNatural n) = .error (.longNumber (spellNatural n).length) := by
    rw [Json.read]
    generalize (spellNatural n).length = length at hnumber ⊢
    rw [hc] at hnumber ⊢
    rw [skipSpace_cons hspace, valueWithin_inner (isInner_digit hdigit), plain_digit hdigit, hnumber]
    rfl
  have hne : (spellNatural n).isEmpty = false := by simp [hc]
  simp only [record?, htrim, hne, Bool.false_eq_true, if_false, hread, recordOf]

/-- A first line with a number of too many digits stops every query. -/
theorem select_longNumber (q : Query) {e : Event} (he : e.isExact = true) {n : Nat}
    (h : isShort n = false) :
    q.select (lines (spellNatural n ++ ['\n'] ++ e.line)) =
      .error (.longNumber (spellNatural n).length) := by
  have hdigit : ∀ c : Char, isAsciiDigit c = false → c ∉ spellNatural n := by
    intro c hc hmem
    rw [isAsciiDigit_spellNatural hmem] at hc
    cases hc
  have hcr : '\r' ∉ spellNatural n ++ '\n' :: (e.spelling ++ ['\n']) := by
    simp only [List.mem_append, List.mem_cons, List.not_mem_nil, or_false, not_or]
    exact ⟨hdigit _ rfl, by decide, not_mem_spelling he rfl, by decide⟩
  rw [Event.line, List.append_assoc, List.singleton_append, lines, unifyLineEnds_eq hcr,
    splitLines_append_newline, splitLines_of_not_mem (hdigit _ rfl), List.singleton_append,
    Query.select, find?_error (record?_longNumber h)]
  rfl

/-- A line that is cut off takes the event with it, a list is no answer to a query for the document
of the event, and a number of too many digits is none to any query. -/
theorem read_append_lost :
    let q : Query := ⟨none, 50, none⟩
    let q' : Query := ⟨none, 50, some quotedEvent.document⟩
    quotedEvent.isExact = true ∧ q.Wants quotedEvent ∧ q'.Wants quotedEvent ∧
      (∃ log, append? "\x7b\"ti".toList quotedEvent = some log ∧ read q log = .ok []) ∧
      (∃ log, append? "[1]\n".toList quotedEvent = some log ∧ read q' log = .error .notTable) ∧
      ∃ log fault, append? (spellNatural (10 ^ maxDigits) ++ ['\n']) quotedEvent = some log ∧
        read q log = .error fault := by
  intro q q'
  have he : quotedEvent.isExact = true := by decide
  have happend (log : List Char) : append? log quotedEvent = some (log ++ quotedEvent.line) := by
    rw [append?, line?_of_exact he]
    rfl
  refine ⟨he, by decide, by decide, ⟨_, happend _, ?_⟩, ⟨_, happend _, ?_⟩, ?_⟩
  · have hread : (read q ("\x7b\"ti".toList ++ quotedEvent.line)).map List.length = .ok 0 := by
      decide +kernel
    obtain ⟨found, hfound, hnil⟩ := Markup.map_eq_ok.mp hread
    rw [hfound, List.length_eq_zero_iff.mp hnil]
  · have hread : (read q' ("[1]\n".toList ++ quotedEvent.line)).map List.length =
        .error .notTable := by
      decide +kernel
    cases hfound : read q' ("[1]\n".toList ++ quotedEvent.line) with
    | error fault =>
      rw [hfound] at hread
      cases hread
      rfl
    | ok found =>
      rw [hfound] at hread
      cases hread
  · have hlong : isShort (10 ^ maxDigits : Nat) = false := by
      rw [Bool.eq_false_iff, ne_eq, isShort_iff]
      exact Nat.lt_irrefl _
    generalize 10 ^ maxDigits = n at hlong
    refine ⟨_, .longNumber (spellNatural n).length, happend _, ?_⟩
    rw [read_eq (by decide), select_longNumber q he hlong]
    rfl

end MarkupIndent.Audit
