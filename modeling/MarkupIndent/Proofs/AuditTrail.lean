import Mathlib.Data.List.DropRight
import MarkupIndent.Audit.Log
import MarkupIndent.Proofs.FileChanges
import MarkupIndent.Proofs.ReadBack
import MarkupIndent.Proofs.Rewriting

/-!
# The audit log is read back

Every event adds one line of printable ASCII to the log, whatever its texts hold, and that line is
read as the record of the event. So a log of events is cut into their lines again, a query selects
from the records as it would from the events, and the limit keeps the last of them. Two things are
not kept: a number of too many digits is not written at all, and two surrogates that stand side by
side are read as the one character that they spell.

* `Event.Recorded`: a record has the six fields of an event.
* `Query.Wants`: an event is late enough and about the right document.
* `record?_spelling`, `splitLines_log`: one line for each event, and one record on each line.
* `selects_record`: **a query selects the record of an event if it wants the event**.
* `addTo_ok`, `addTo_longNumber`: an event is added to a file, or nothing is.
* `read_events`: **a log gives back the events that a query wants**.
* `read_events_surrogates`: an event that is read back as another one.
-/

namespace MarkupIndent.Text

/-! ## Lines and ends -/

/-- What stands before a line end and what stands after it are cut into lines on their own. -/
theorem splitLines_append_newline (before after : List Char) :
    splitLines (before ++ '\n' :: after) = splitLines before ++ splitLines after := by
  induction before with
  | nil => rfl
  | cons c rest ih =>
    have hne : splitLines rest ≠ [] := by
      cases rest with
      | nil => simp [splitLines]
      | cons d rest =>
        unfold splitLines
        split
        · simp
        · split <;> simp
    rw [List.cons_append, splitLines, splitLines, ih]
    split
    · rfl
    · obtain ⟨line, lines, hlines⟩ := List.exists_cons_of_ne_nil hne
      rw [hlines]
      rfl

/-- A text without line ends is a line. -/
theorem splitLines_of_not_mem {text : List Char} (h : '\n' ∉ text) : splitLines text = [text] := by
  induction text with
  | nil => rfl
  | cons c rest ih =>
    rw [List.mem_cons, not_or] at h
    rw [splitLines, if_neg (Ne.symm h.1), ih h.2]

/-- The blanks at the beginning are all that is trimmed before a text with other ends. -/
theorem trim_append {text ends : List Char} {c d : Char} (hfirst : ends.head? = some c)
    (hc : isBlank c = false) (hlast : ends.getLast? = some d) (hd : isBlank d = false) :
    trim (text ++ ends) = trimLeft text ++ ends := by
  have hleft : trimLeft (text ++ ends) = trimLeft text ++ ends := by
    obtain ⟨rest, rfl⟩ := List.head?_eq_some_iff.mp hfirst
    rw [trimLeft, List.dropWhile_append, trimLeft]
    split
    · next hempty =>
      rw [List.isEmpty_iff.mp hempty, List.nil_append, List.dropWhile_cons_of_neg (by simp [hc])]
    · rfl
  obtain ⟨rest, rfl⟩ := List.getLast?_eq_some_iff.mp hlast
  rw [trim, hleft, trimRight, ← List.append_assoc, List.reverse_concat,
    List.dropWhile_cons_of_neg (by simp [hd]), List.reverse_cons, List.reverse_reverse]

end MarkupIndent.Text

namespace MarkupIndent.Audit

open Files Json Text

/-! ## The line of an event -/

/-- The texts and numbers of an event can be written without loss. -/
def Event.isExact (e : Event) : Bool :=
  e.toRecord.isExact

/-- The six fields of an event in the order of their names. -/
def Event.fieldsWith (e : Event) (metadata : Value) : List (LooseText × Value) := [
  ("aborted", .bool e.aborted),
  ("document", .text e.document),
  ("error_code", (e.errorCode.map .text).getD .null),
  ("metadata", metadata),
  ("ok", .bool e.ok),
  ("timestamp", .text e.timestamp)]

/-- A record has the six fields of an event, with the same metadata. -/
def Event.Recorded (e : Event) (record : Value) : Prop :=
  ∃ metadata, (Value.table e.metadata).same metadata = true ∧
    record = .table (e.fieldsWith metadata)

/-- The record of an event, as it stands in the log. -/
def Event.record (e : Event) : Value :=
  ordered e.toRecord

/-- The line of an event without its line end. -/
def Event.spelling (e : Event) : List Char :=
  spell e.record

/-- The line of an event whose numbers can be written. -/
def Event.line (e : Event) : List Char :=
  e.spelling ++ ['\n']

theorem record_eq (e : Event) : e.record = .table (e.fieldsWith (ordered (.table e.metadata))) := by
  obtain ⟨timestamp, document, ok, aborted, errorCode, metadata⟩ := e
  cases errorCode <;> rfl

theorem isExact_metadata {e : Event} (h : e.isExact = true) :
    (Value.table e.metadata).isExact = true := by
  simp only [Event.isExact, Event.toRecord, Value.isExact, Value.haveExact, Bool.and_eq_true] at h
  simpa only [Value.isExact, Bool.and_eq_true] using h.2.2.2.2.2.2.1.2

theorem isExact_record {e : Event} (h : e.isExact = true) : e.record.isExact = true :=
  isExact_ordered h

theorem recorded_record {e : Event} (h : e.isExact = true) : e.Recorded e.record :=
  ⟨ordered (.table e.metadata), same_ordered (isExact_metadata h), record_eq e⟩

/-- **An event can be written if all numbers in its metadata can be.** -/
theorem line?_eq (e : Event) :
    e.line? = if Value.haveShort e.metadata then some e.line else none := by
  have hshort : e.record.isShort = Value.haveShort e.metadata := by
    obtain ⟨timestamp, document, ok, aborted, errorCode, metadata⟩ := e
    rw [Event.record, isShort_ordered]
    cases errorCode <;> simp [Event.toRecord, Value.isShort, Value.haveShort]
  rw [Event.line?, write?, ← Event.record, hshort]
  cases Value.haveShort e.metadata <;> rfl

theorem line?_of_exact {e : Event} (h : e.isExact = true) : e.line? = some e.line := by
  have hshort := isShort_of_isExact (isExact_metadata h)
  rw [Value.isShort] at hshort
  rw [line?_eq, if_pos hshort]

section Line

variable {e : Event} (h : e.isExact = true)
include h

theorem isPlainChar_spelling {c : Char} (hc : c ∈ e.spelling) : isPlainChar c = true :=
  isPlainChar_spell (isExact_record h) c hc

/-- No text in an event ends its line. -/
theorem not_mem_spelling {c : Char} (hc : isPlainChar c = false) : c ∉ e.spelling := by
  intro hmem
  rw [isPlainChar_spelling h hmem] at hc
  cases hc

omit h in
/-- The line of an event stands in braces. -/
theorem ends_spelling : e.spelling.head? = some '\x7b' ∧ e.spelling.getLast? = some '\x7d' := by
  have hfields : ∀ fields, ∃ text, spellFields fields = text ++ ['\x7d'] := by
    intro fields
    induction fields with
    | nil => exact ⟨[], rfl⟩
    | cons f rest ih =>
      obtain ⟨text, htext⟩ := ih
      refine ⟨',' :: ' ' :: (writeString f.1 ++ ':' :: ' ' :: (spell f.2 ++ text)), ?_⟩
      rw [spellFields, htext]
      simp
  have htable : ∀ f rest, ∃ text, spell (.table (f :: rest)) = '\x7b' :: (text ++ ['\x7d']) := by
    intro f rest
    obtain ⟨text, htext⟩ := hfields rest
    refine ⟨writeString f.1 ++ ':' :: ' ' :: (spell f.2 ++ text), ?_⟩
    rw [spell, htext]
    simp
  obtain ⟨text, htext⟩ := htable _ _
  rw [Event.spelling, record_eq, Event.fieldsWith, htext]
  exact ⟨rfl, by rw [← List.cons_append, List.getLast?_concat]⟩

omit h in
/-- What stands before the line of an event is read with it, its own blanks apart. -/
theorem record?_append (text : List Char) :
    record? (text ++ e.spelling) = recordOf (Json.read (trimLeft text ++ e.spelling)) := by
  obtain ⟨hfirst, hlast⟩ := ends_spelling (e := e)
  obtain ⟨rest, hrest⟩ := List.head?_eq_some_iff.mp hfirst
  have hne : (trimLeft text ++ e.spelling).isEmpty = false := by simp [hrest]
  simp only [record?, trim_append hfirst rfl hlast rfl, hne, Bool.false_eq_true, if_false]

/-- **The line of an event holds its record.** -/
theorem record?_spelling : record? e.spelling = .ok (some e.record) := by
  have hrecord := record?_append (e := e) []
  rw [List.nil_append, trimLeft, List.dropWhile_nil, List.nil_append, Event.spelling,
    read_spell (isExact_record h)] at hrecord
  exact hrecord

end Line

/-! ## What a query asks for -/

/-- An event is not before the time of a query, by code points, and about the right document. -/
def Query.Wants (q : Query) (e : Event) : Prop :=
  (∀ time ∈ q.since, ¬ e.timestamp.points < time.points) ∧
    ∀ document ∈ q.document, e.document.points = document.points

instance (q : Query) : DecidablePred q.Wants := fun e =>
  inferInstanceAs (Decidable ((∀ time ∈ q.since, ¬ e.timestamp.points < time.points) ∧
    ∀ document ∈ q.document, e.document.points = document.points))

/-- **A query selects the record of an event if it wants the event.** -/
theorem selects_record (q : Query) (e : Event) : q.selects e.record = .ok (decide (q.Wants e)) := by
  have htime (time : LooseText) (metadata : Value) :
      notBefore time (e.fieldsWith metadata) = decide (¬ e.timestamp.points < time.points) := by
    have hfield : Value.field? (e.fieldsWith metadata) "timestamp" = some (.text e.timestamp) := rfl
    rw [notBefore, hfield, decide_not]
  have hdocument (document : LooseText) (metadata : Value) :
      isOf document (e.fieldsWith metadata) = decide (e.document.points = document.points) := by
    have hfield : Value.field? (e.fieldsWith metadata) "document" = some (.text e.document) := rfl
    rw [isOf, hfield]
    simp only [beq_eq_decide]
  obtain ⟨since, limit, document⟩ := q
  rw [record_eq]
  cases since <;> cases document <;> simp [Query.selects, Query.Wants, htime, hdocument]

theorem find?_spelling (q : Query) {e : Event} (h : e.isExact = true) :
    q.find? e.spelling = .ok (if q.Wants e then some e.record else none) := by
  simp only [Query.find?, record?_spelling h, selects_record, bind, Except.bind, decide_eq_true_eq]

/-- Lines are queried one after the other. -/
theorem select_append (q : Query) (before after : List (List Char)) :
    q.select (before ++ after) =
      q.select before >>= fun found => (q.select after).map (found ++ ·) := by
  induction before with
  | nil =>
    rw [List.nil_append, Query.select]
    cases q.select after <;> rfl
  | cons line rest ih =>
    rw [List.cons_append, Query.select, Query.select, ih]
    cases q.find? line with
    | error fault => rfl
    | ok found =>
      cases q.select rest with
      | error fault => rfl
      | ok more =>
        cases q.select after with
        | error fault => rfl
        | ok last => simp only [bind, Except.bind, Except.map, List.append_assoc]

/-! ## The log of some events -/

/-- The line that is begun after the last event holds nothing. -/
theorem select_concat_nil (q : Query) (log : List (List Char)) :
    q.select (log ++ [[]]) = q.select log := by
  have hnil : q.select [[]] = .ok [] := rfl
  rw [select_append, hnil]
  cases q.select log <;> simp [bind, Except.bind, Except.map]

section Log

variable {events : List Event} (h : ∀ e ∈ events, e.isExact = true)
include h

theorem append_events (log : List Char) :
    events.foldlM append? log = some (log ++ events.flatMap Event.line) := by
  induction events generalizing log with
  | nil => simp
  | cons e rest ih =>
    have he : append? log e = some (log ++ e.line) := by
      rw [append?, line?_of_exact (h e List.mem_cons_self)]
      rfl
    rw [List.foldlM_cons, he, Option.bind_eq_bind, Option.bind_some,
      ih fun f hf => h f (List.mem_cons_of_mem e hf), List.flatMap_cons, List.append_assoc]

/-- **A log has one line for each event**, and nothing after the last one. -/
theorem splitLines_log :
    splitLines (events.flatMap Event.line) = events.map Event.spelling ++ [[]] := by
  induction events with
  | nil => rfl
  | cons e rest ih =>
    have he := h e List.mem_cons_self
    rw [List.flatMap_cons, Event.line, List.append_assoc, List.singleton_append,
      splitLines_append_newline, splitLines_of_not_mem (not_mem_spelling he rfl),
      ih fun f hf => h f (List.mem_cons_of_mem e hf)]
    rfl

theorem unifyLineEnds_log :
    unifyLineEnds (events.flatMap Event.line) = events.flatMap Event.line := by
  refine unifyLineEnds_eq fun hmem => ?_
  obtain ⟨e, he, hmem⟩ := List.mem_flatMap.mp hmem
  rw [Event.line, List.mem_append, List.mem_singleton] at hmem
  exact hmem.elim (not_mem_spelling (h e he) rfl) (by decide)

theorem select_spellings (q : Query) : q.select (events.map Event.spelling) =
    .ok ((events.filter (q.Wants ·)).map Event.record) := by
  induction events with
  | nil => rfl
  | cons e rest ih =>
    rw [List.map_cons, Query.select, find?_spelling q (h e List.mem_cons_self),
      ih fun f hf => h f (List.mem_cons_of_mem e hf), List.filter_cons]
    simp only [bind, Except.bind, decide_eq_true_eq]
    split <;> rfl

/-- The lines of a log hold the records of the events that a query wants. -/
theorem select_log (q : Query) : q.select (lines (events.flatMap Event.line)) =
    .ok ((events.filter (q.Wants ·)).map Event.record) := by
  rw [lines, unifyLineEnds_log h, splitLines_log h, select_concat_nil, select_spellings h]

end Log

/-! ## The file of a log -/

section File

variable {s : Store} {p : Path} {place : Place} (hp : s.resolve p = .ok place)
  (hplace : s.get? place ≠ some .directory) (hopen : place ∉ s.unwritable)
include hp hplace hopen

/-- **An event is added to a file** that is there or can be made. -/
theorem addTo_ok {e : Event} {line : List Char} (hline : e.line? = some line) :
    e.addTo p s = .ok () (s.put place (.file (s.bytesAt place ++ Utf8.encode line))) := by
  have hchange := Store.changeFile_ok hp hplace hopen (· ++ Utf8.encode line)
  simp only [Event.addTo, hline, Option.getD_some, Store.appendText, hchange, Option.isSome_some,
    if_true]

/-- **An event with a number of too many digits adds nothing.** The file is there all the same. -/
theorem addTo_longNumber {e : Event} (hlong : Value.haveShort e.metadata = false) :
    e.addTo p s = .error .longNumber (s.put place (.file (s.bytesAt place))) := by
  have hchange := Store.changeFile_ok hp hplace hopen (· ++ Utf8.encode [])
  have hline : e.line? = none := by rw [line?_eq, hlong, if_neg Bool.false_ne_true]
  have hnil : s.bytesAt place ++ Utf8.encode [] = s.bytesAt place := ByteArray.append_empty
  rw [hnil] at hchange
  simp only [Event.addTo, hline, Option.getD_none, Store.appendText, hchange, Option.isSome_none,
    Bool.false_eq_true, if_false]

end File

/-- Add events to the file of a log, one after the other. -/
def appendEach (p : Path) : List Event → EStateM AppendFault Store Unit
  | [] => pure ()
  | e :: rest => do
    e.addTo p
    appendEach p rest

/-- A log can be added to: its path leads to a place that is no directory and is open to writing. -/
structure Open (s : Store) (p : Path) (place : Place) : Prop where
  resolve : s.resolve p = .ok place
  noDirectory : s.get? place ≠ some .directory
  writable : place ∉ s.unwritable

/-- Events can be added to a file, and come after what it holds. -/
theorem appendEach_ok {s : Store} {p : Path} {place : Place} (hs : Open s p place)
    {events : List Event} (h : ∀ e ∈ events, e.isExact = true) :
    ∃ t, appendEach p events s = .ok () t ∧ Open t p place ∧ t.unreadable = s.unreadable ∧
      (events = [] → t = s) ∧ (events ≠ [] → t.get? place = some (.file (t.bytesAt place))) ∧
      t.bytesAt place = s.bytesAt place ++ Utf8.encode (events.flatMap Event.line) := by
  induction events generalizing s with
  | nil =>
    refine ⟨s, rfl, hs, rfl, fun _ => rfl, fun h => absurd rfl h, ?_⟩
    simp [Utf8.encode]
  | cons e rest ih =>
    have hput := addTo_ok hs.resolve hs.noDirectory hs.writable (line?_of_exact (h e List.mem_cons_self))
    generalize hbytes : s.bytesAt place ++ Utf8.encode e.line = bytes at hput
    generalize hs' : s.put place (.file bytes) = s' at hput
    have hget : s'.get? place = some (.file bytes) := by
      rw [← hs', Store.get?_put _ _ _ (Store.ne_nil_of_get? hs.noDirectory), if_pos rfl]
    have hbytes' : s'.bytesAt place = bytes := by rw [Store.bytesAt, hget]
    have hgrown : Store.Grown (· = place) s s' :=
      hs' ▸ Store.grown_put (Store.grown_refl (· = place) s) hs.noDirectory (fun _ => rfl) bytes
    -- the way to the file goes through directories, so it is still there
    have hresolve : s'.resolve p = .ok place := by
      rw [Store.resolve_grown hgrown, hs.resolve]
      intro way hthrough hnone
      rw [Store.directory_of_through hs.resolve hthrough] at hnone
      cases hnone
    obtain ⟨t, ht, hopen, hrights, hnil, hfile, hlog⟩ :=
      ih ⟨hresolve, Store.not_directory hget, hgrown.unwritable ▸ hs.writable⟩
        fun f hf => h f (List.mem_cons_of_mem e hf)
    refine ⟨t, ?_, hopen, hrights.trans hgrown.unreadable,
      fun h => absurd h (List.cons_ne_nil e rest), fun _ => ?_, ?_⟩
    · simp only [appendEach, bind, EStateM.bind, hput, ht]
    · by_cases hrest : rest = []
      · rw [hnil hrest, hbytes', hget]
      · exact hfile hrest
    · rw [hlog, hbytes', ← hbytes, List.flatMap_cons, Utf8.encode_append, ByteArray.append_assoc]

/-- **The audit log gives back what was added to it.** Events whose texts have no two surrogates that
spell a character, and whose numbers have not too many digits, make a log of one line for each of
them, and the bytes of its file are read as the same text. A query finds the events that it wants in
the order in which they were added, the last of them up to its limit, each as the record with its
six fields and the same metadata. An event with a number of too many digits is refused, and the log
is as it was. -/
theorem read_events {s : Store} {p : Path} {place : Place} (hs : Open s p place)
    (hfresh : s.bytesAt place = ByteArray.empty) (events : List Event)
    (h : ∀ e ∈ events, e.isExact = true) (q : Query) :
    ∃ log t found, events.foldlM append? [] = some log ∧ appendEach p events s = .ok () t ∧
      t.bytesAt place = Utf8.encode log ∧
      (events ≠ [] → place ∉ s.unreadable → t.readText p = .ok log) ∧
      splitLines (unifyLineEnds log) = events.map Event.spelling ++ [[]] ∧
      read q log = .ok found ∧
      List.Forall₂ Event.Recorded ((events.filter (q.Wants ·)).rtake q.limit.toNat) found ∧
      ∀ e : Event, Value.haveShort e.metadata = false → append? log e = none ∧
        ∃ t', e.addTo p t = .error .longNumber t' ∧ t'.bytesAt place = t.bytesAt place := by
  obtain ⟨t, ht, hopen, hrights, -, hfile, hbytes⟩ := appendEach_ok hs h
  rw [hfresh, ByteArray.empty_append] at hbytes
  refine ⟨events.flatMap Event.line, t,
    ((events.filter (q.Wants ·)).rtake q.limit.toNat).map Event.record, append_events h [], ht,
    hbytes, fun hne hread => ?_, by rw [unifyLineEnds_log h, splitLines_log h], ?_, ?_,
    fun e hlong => ⟨?_, ?_⟩⟩
  · rw [Store.readText_file hopen.resolve (hfile hne) (hrights ▸ hread)
      (hbytes ▸ Utf8.decode_encode _), unifyLineEnds_log h]
  · rw [read, select_log h]
    split
    · next hlimit =>
      rw [Int.toNat_of_nonpos (by omega), List.rtake_zero]
      rfl
    · simp only [Except.map, lastItems, List.rtake, List.length_map, List.map_drop]
  · rw [List.forall₂_map_right_iff, List.forall₂_same]
    intro e he
    exact recorded_record (h e (List.mem_of_mem_filter (List.mem_of_mem_drop he)))
  · rw [append?, line?_eq, hlong]
    rfl
  · refine ⟨_, addTo_longNumber hopen.resolve hopen.noDirectory hopen.writable hlong, ?_⟩
    rw [Store.bytesAt, Store.get?_put _ _ _ (Store.ne_nil_of_get? hopen.noDirectory), if_pos rfl]

/-- An event about a document whose name has quotes, line ends and a character beyond the first
plane. -/
def quotedEvent : Event where
  timestamp := "2026-01-01T00:00:00.000Z"
  document := "a\"\\\n\r\u2028é😀"
  ok := true
  aborted := false
  errorCode := none
  metadata := []

/-- An event whose metadata are nested, in no order, and hold a large number and a surrogate that
stands alone. -/
def nestedEvent : Event where
  timestamp := "2026-01-02T00:00:00.000Z"
  document := "b"
  ok := false
  aborted := true
  errorCode := some "READ_ERROR"
  metadata := [
    ("z", .list [.int (-123456789012345678901234567890), .null,
      .table [("b", .bool true), ("a", .text (.broken [0xd800, 0x61]))]]),
    ("", .text "\u0000")]

theorem read_events_nested :
    let s : Store := { here := [], entries := [] }
    let p : Path := ⟨"", ["audit.jsonl"]⟩
    let q : Query := ⟨some "2026-01-01T12:00:00.000Z", 5, none⟩
    Open s p ["audit.jsonl"] ∧ quotedEvent.isExact = true ∧ nestedEvent.isExact = true ∧
      ∃ log t record, appendEach p [quotedEvent, nestedEvent] s = .ok () t ∧
        t.readText p = .ok log ∧ read q log = .ok [record] ∧ nestedEvent.Recorded record := by
  intro s p q
  have hopen : Open s p ["audit.jsonl"] := ⟨rfl, by rintro ⟨⟩, List.not_mem_nil⟩
  have hquoted : quotedEvent.isExact = true := by decide
  have hshort : Text.isShort (-123456789012345678901234567890) = true :=
    isShort_iff.mpr (Nat.lt_of_lt_of_le (by decide : _ < 10 ^ 30)
      (Nat.pow_le_pow_right (by decide) (by decide)))
  have hnested : nestedEvent.isExact = true := by
    simp only [nestedEvent, Event.isExact, Event.toRecord, Value.isExact, Value.haveExact,
      Value.areExact, hshort, Bool.true_and]
    decide
  have hexact : ∀ e ∈ [quotedEvent, nestedEvent], e.isExact = true := by
    simp [hquoted, hnested]
  obtain ⟨log, t, found, -, ht, -, htext, -, hfound, hrecords, -⟩ :=
    read_events hopen rfl [quotedEvent, nestedEvent] hexact q
  have hwanted : ([quotedEvent, nestedEvent].filter (q.Wants ·)).rtake q.limit.toNat =
      [nestedEvent] := by rfl
  rw [hwanted] at hrecords
  obtain ⟨record, _, hrecord, hnil, rfl⟩ := List.forall₂_cons_left_iff.mp hrecords
  obtain rfl := List.forall₂_nil_left_iff.mp hnil
  exact ⟨hopen, hquoted, hnested, log, t, record, ht,
    htext (List.cons_ne_nil _ _) List.not_mem_nil, hfound, hrecord⟩

/-- An event whose time is two surrogates. -/
def surrogateEvent : Event where
  timestamp := .broken [0xd83d, 0xde00]
  document := "a"
  ok := true
  aborted := false
  errorCode := none
  metadata := []

/-- Two surrogates are written as they are and read as one character. So a query finds an event that
it does not want. An event with a number of too many digits is not written. -/
theorem read_events_surrogates :
    let q : Query := ⟨some "\ue000", 50, none⟩
    (∃ log record, append? [] surrogateEvent = some log ∧ ¬ q.Wants surrogateEvent ∧
      read q log = .ok [record]) ∧
    append? [] { quotedEvent with metadata := [("n", .int (10 ^ maxDigits))] } = none := by
  intro q
  constructor
  · have hlog : append? [] surrogateEvent = some surrogateEvent.line := by
      rw [append?, line?_eq]
      rfl
    have hread : (read q surrogateEvent.line).map List.length = .ok 1 := by decide +kernel
    obtain ⟨found, hfound, hone⟩ := Markup.map_eq_ok.mp hread
    obtain ⟨record, rfl⟩ := List.length_eq_one_iff.mp hone
    exact ⟨_, record, hlog, by decide, hfound⟩
  · have hlong : Text.isShort (10 ^ maxDigits) = false := by
      have hten : (10 : Int).natAbs = 10 := rfl
      rw [Bool.eq_false_iff, ne_eq, isShort_iff, Int.natAbs_pow, hten]
      exact Nat.lt_irrefl _
    rw [append?, line?_eq]
    simp only [Value.haveShort, Value.isShort, hlong, Bool.false_and, Bool.false_eq_true, if_false,
      Option.map_none]

end MarkupIndent.Audit
