import MarkupIndent.Lint.Files
import MarkupIndent.Proofs.FileChanges
import MarkupIndent.Proofs.Linting

/-!
# What mending does to a file

A file is read with all its line ends as line feeds, mended in this form, and written as it then is,
if mending has changed anything. So the margins of reported lines change, and the line ends of a
file that is written: all of them become line feeds. A file that is closed to writing stops the run
and stays as it is.

* `withoutMargins`: a text without the blanks that its lines begin with.
* `stripFrom_reindented`: texts that differ in their margins are the same without them.
* `Store.writeText_file`: what writing a file does to a store.
* `lintFile_text`, `lintEach_cons`, `lintEach_append`: a run, file by file.
* `lintFiles_rewrites`: what mending does to a file and to all others.
-/

namespace MarkupIndent.Text

/-! ## Texts without margins -/

/-- The rest of a text without the blanks that its lines begin with. What is left may go on with a
line or begin with a fresh one; a line ends with a line feed or a carriage return. -/
def stripFrom (fresh : Bool) : List Char → List Char
  | [] => []
  | c :: rest =>
    if c = '\n' ∨ c = '\r' then c :: stripFrom true rest
    else if fresh && isBlank c then stripFrom true rest
    else c :: stripFrom false rest

/-- The text without the blanks that its lines begin with. -/
def withoutMargins (text : List Char) : List Char :=
  stripFrom true text

theorem stripFrom_margin {w : List Char} (hw : Margin w) (hr : '\r' ∉ w) (rest : List Char) :
    stripFrom true (w ++ rest) = stripFrom true rest := by
  induction w with
  | nil => rfl
  | cons c w ih =>
    obtain ⟨hblank, hline⟩ := hw c List.mem_cons_self
    have hc : ¬ (c = '\n' ∨ c = '\r') := by
      rintro (rfl | rfl)
      · exact hline rfl
      · exact hr List.mem_cons_self
    rw [List.cons_append, stripFrom, if_neg hc, hblank, Bool.and_self, if_pos rfl]
    exact ih hw.tail fun hmem => hr (List.mem_cons_of_mem c hmem)

/-- **Texts that differ in their margins are the same without them.** -/
theorem stripFrom_reindented {a b : List Char} (h : Reindented a b) (ha : '\r' ∉ a)
    (hb : '\r' ∉ b) (fresh : Bool) : stripFrom fresh a = stripFrom fresh b := by
  induction h generalizing fresh with
  | nil => rfl
  | char _ _ ih =>
    have ih := ih (fun hm => ha (List.mem_cons_of_mem _ hm))
      fun hm => hb (List.mem_cons_of_mem _ hm)
    rw [stripFrom, stripFrom, ih true, ih false]
  | line hv hw _ ih =>
    simp only [List.mem_cons, List.mem_append, not_or] at ha hb
    rw [stripFrom, stripFrom, if_pos (.inl rfl), if_pos (.inl rfl), stripFrom_margin hv ha.2.1,
      stripFrom_margin hw hb.2.1, ih ha.2.2 hb.2.2]

theorem mem_stripFrom (fresh : Bool) (text : List Char) :
    '\r' ∈ stripFrom fresh text ↔ '\r' ∈ text := by
  induction text generalizing fresh with
  | nil => rfl
  | cons c rest ih =>
    rw [stripFrom]
    split
    · rw [List.mem_cons, List.mem_cons, ih]
    · next hc =>
      have hne : '\r' ≠ c := fun h => hc (.inr h.symm)
      split
      · rw [ih, List.mem_cons, or_iff_right hne]
      · rw [List.mem_cons, List.mem_cons, ih]

/-! ## Line ends -/

theorem not_mem_unifyLineEnds (text : List Char) : '\r' ∉ unifyLineEnds text := by
  fun_induction unifyLineEnds text with
  | case1 => simp
  | case2 rest ih => simpa using ih
  | case3 c rest _ ih =>
    rw [List.mem_cons, not_or]
    refine ⟨?_, ih⟩
    split
    · decide
    · next hc => exact fun h => hc h.symm

/-- A text without carriage returns is read as it is. -/
theorem unifyLineEnds_eq {text : List Char} (h : '\r' ∉ text) : unifyLineEnds text = text := by
  fun_induction unifyLineEnds text with
  | case1 => rfl
  | case2 rest ih => exact absurd List.mem_cons_self h
  | case3 c rest _ ih =>
    rw [List.mem_cons, not_or] at h
    rw [if_neg (Ne.symm h.1), ih h.2]

end MarkupIndent.Text

namespace MarkupIndent.Files.Store

open Text

section File

variable {s : Store} {p : Path} {place : Place} {bytes : ByteArray}
  (hp : s.resolve p = .ok place) (hfile : s.get? place = some (.file bytes))
include hp hfile

theorem readText_file (hopen : place ∉ s.unreadable) {text : List Char}
    (htext : Utf8.decode bytes = .ok text) : s.readText p = .ok (unifyLineEnds text) := by
  simp only [readText, readBytes, hp, bytesIn, hfile, if_neg hopen, textOf, htext, bind, Except.bind,
    Except.mapError]

theorem readText_denied (hclosed : place ∈ s.unreadable) : s.readText p = .error ⟨p, .denied⟩ := by
  simp only [readText, readBytes, hp, bytesIn, hfile, if_pos hclosed, bind, Except.bind,
    Except.mapError]

/-- **Writing a file** gives it the text and leaves everything else as it is. -/
theorem writeText_file (hopen : place ∉ s.unwritable) (text : List Char) :
    ∃ s', s.writeText p text = .ok s' ∧ s'.get? place = some (.file (Utf8.encode text)) ∧
      ∀ other, other ≠ place → s'.get? other = s.get? other := by
  have hdir := not_directory hfile
  have hne := ne_nil_of_get? hdir
  refine ⟨_, changeFile_ok hp hdir hopen _, ?_, fun other hother => ?_⟩
  · rw [get?_put s place _ hne, if_pos rfl]
  · rw [get?_put s other _ hne, if_neg hother]

end File

end MarkupIndent.Files.Store

namespace MarkupIndent.Lint

open Files Margin Settings Text

/-- A text that is mended is the same without margins. -/
theorem Mends.withoutMargins {reports : List Report} {text fixed : List Char}
    (h : Mends reports text fixed) (hr : '\r' ∉ text) :
    withoutMargins fixed = withoutMargins text := by
  have := stripFrom_reindented h.reindented (by simpa using hr) (by simpa using h.plain hr) true
  rw [stripFrom, stripFrom, if_pos (.inl rfl), if_pos (.inl rfl)] at this
  exact (List.cons.inj this).2.symm

section Steps

variable {job : Job} {trail : Option Trail} {s t : Store} {p : Path} {text : List Char}
  {o : Outcome} {fault : FileFault}

/-- A file that was read is logged first, and then it may be written. -/
theorem lintFile_text (hread : s.readText p = .ok text) (ho : lintText job p.toString text = .ok o)
    (hrecord : record o trail s = .ok () t) :
    lintFile job trail p s = (writeFixed p text o).map (fun _ => o) t := by
  have hget : (get : Run Store) s = .ok s s := rfl
  simp only [lintFile, bind, EStateM.bind, hget, hread, ho, hrecord, pure, EStateM.pure,
    EStateM.map]

/-- A file that cannot be read is logged. -/
theorem lintFile_unreadable (hread : s.readText p = .error fault) (hnamed : p.hasNull = false)
    (hrecord : record (.failed p.toString .unreadable fault.message) trail s = .ok () t) :
    lintFile job trail p s = .ok (.failed p.toString .unreadable fault.message) t := by
  have hget : (get : Run Store) s = .ok s s := rfl
  simp only [lintFile, bind, EStateM.bind, hget, hread, hnamed, Bool.false_eq_true, if_false,
    hrecord, pure, EStateM.pure]

/-- The files after one that was linted. -/
theorem lintEach_cons (h : lintFile job trail p s = .ok o t) (ps : List Path) :
    lintEach job trail (p :: ps) s = (lintEach job trail ps).map (o :: ·) t := by
  simp only [lintEach, bind, EStateM.bind, h, pure, EStateM.pure, EStateM.map]

/-- A file that stops a run. -/
theorem lintEach_stopped {fault : RunFault} (h : lintFile job trail p s = .error fault t)
    (ps : List Path) : lintEach job trail (p :: ps) s = .error fault t := by
  simp only [lintEach, bind, EStateM.bind, h]

/-- A run goes over one list of files and then over another. -/
theorem lintEach_append {ps : List Path} {os : List Outcome}
    (h : lintEach job trail ps s = .ok os t) (qs : List Path) :
    lintEach job trail (ps ++ qs) s = (lintEach job trail qs).map (os ++ ·) t := by
  induction ps generalizing s os with
  | nil =>
    cases h
    rw [List.nil_append]
    cases hrest : lintEach job trail qs t <;> simp only [EStateM.map, hrest, List.nil_append]
  | cons p ps ih =>
    cases hone : lintFile job trail p s with
    | error fault s₁ =>
      rw [lintEach_stopped hone] at h
      cases h
    | ok o s₁ =>
      rw [lintEach_cons hone, EStateM.map] at h
      cases hmore : lintEach job trail ps s₁ with
      | error fault s₂ =>
        rw [hmore] at h
        cases h
      | ok os' s₂ =>
        rw [hmore] at h
        cases h
        rw [List.cons_append, lintEach_cons hone]
        cases hrest : lintEach job trail qs t <;>
          simp only [EStateM.map, ih hmore, hrest, List.cons_append]

/-- One file is linted as if it were alone. -/
theorem lintFiles_single (hread : s.readText p = .ok text)
    (ho : lintText job p.toString text = .ok o) :
    lintFiles job none [p] s = (writeFixed p text o).map (fun _ => [o]) s := by
  have hone : lintFile job none p s = _ := lintFile_text hread ho rfl
  rw [lintFiles, List.mergeSort_singleton, EStateM.map]
  rw [EStateM.map] at hone
  cases hwrite : writeFixed p text o s with
  | error fault t =>
    rw [hwrite] at hone
    exact lintEach_stopped hone []
  | ok _ t =>
    rw [hwrite] at hone
    exact lintEach_cons hone []

/-- A file that cannot be read is left as it is. -/
theorem lintFiles_unreadable (hread : s.readText p = .error fault) (hnamed : p.hasNull = false) :
    lintFiles job none [p] s = .ok [.failed p.toString .unreadable fault.message] s := by
  rw [lintFiles, List.mergeSort_singleton]
  exact lintEach_cons (lintFile_unreadable hread hnamed rfl) []

end Steps

/-- A file is left as it is or gets the mended text. -/
theorem writeFixed_cases (s : Store) (p : Path) (text : List Char) (o : Outcome) :
    writeFixed p text o s = .ok () s ∨ ∃ fixed, o.fixedText = some fixed ∧
      writeFixed p text o s = change (·.writeText p fixed) s := by
  unfold writeFixed
  cases hfixed : o.fixedText with
  | none => exact .inl rfl
  | some fixed =>
    by_cases hsame : fixed = text
    · exact .inl (by simp only [if_pos hsame]; rfl)
    · exact .inr ⟨fixed, rfl, by simp only [if_neg hsame]⟩

theorem mends_refl (reports : List Report) (text : List Char) : Mends reports text text :=
  ⟨.refl _, id, rfl, fun _ _ hline _ => hline⟩

/-- **Mending a file changes the margins of reported lines**, and its line ends if it is written:
then all of them are line feeds. Without its margins the file is as it was, unless it is written
and had carriage returns. All other files are left as they are. Where the file is closed to writing,
the run may stop with it, and the file stays as it is. -/
theorem lintFiles_rewrites {job : Job} {s : Store} {p : Path} {place : Place} {bytes : ByteArray}
    {text : List Char} (hregistry : job.registry = .default) (hp : s.resolve p = .ok place)
    (hfile : s.get? place = some (.file bytes)) (htext : Utf8.decode bytes = .ok text) :
    ∃ o s' bytes' text',
      (lintFiles job none [p] s = .ok [o] s' ∨
        place ∈ s.unwritable ∧ bytes' = bytes ∧
          lintFiles job none [p] s = .error (.file ⟨p, .denied⟩) s') ∧
      s'.get? place = some (.file bytes') ∧ Utf8.decode bytes' = .ok text' ∧
      (∀ other, other ≠ place → s'.get? other = s.get? other) ∧
      Mends o.reports (unifyLineEnds text) (unifyLineEnds text') ∧
      (bytes' = bytes ∨ '\r' ∉ text') ∧
      (withoutMargins text' = withoutMargins text ↔ bytes' = bytes ∨ '\r' ∉ text) := by
  by_cases hclosed : place ∈ s.unreadable
  · have hlint : lintFiles job none [p] s = .ok _ s :=
      lintFiles_unreadable (Store.readText_denied hp hfile hclosed) (Store.resolve_eq_ok.mp hp).1
    exact ⟨_, s, bytes, text, .inl hlint, hfile, htext, fun _ _ => rfl, mends_refl _ _, .inl rfl,
      fun _ => .inl rfl, fun _ => rfl⟩
  obtain ⟨o, ho, -, hmends⟩ :=
    lintText_spec (hregistry ▸ descends_default) p.toString (unifyLineEnds text)
  have hlint := lintFiles_single (Store.readText_file hp hfile hclosed htext) ho
  rw [EStateM.map] at hlint
  rcases writeFixed_cases s p (unifyLineEnds text) o with hwrite | ⟨fixed, hfixed, hwrite⟩
  · rw [hwrite] at hlint
    exact ⟨o, s, bytes, text, .inl hlint, hfile, htext, fun _ _ => rfl, mends_refl _ _, .inl rfl,
      fun _ => .inl rfl, fun _ => rfl⟩
  by_cases hdenied : place ∈ s.unwritable
  · have hwrong : s.writeText p fixed = .error ⟨p, .denied⟩ :=
      Store.changeFile_denied hp (Store.not_directory hfile) hdenied _
    rw [hwrite, change, hwrong] at hlint
    exact ⟨o, s, bytes, text, .inr ⟨hdenied, rfl, hlint⟩, hfile, htext, fun _ _ => rfl,
      mends_refl _ _, .inl rfl, fun _ => .inl rfl, fun _ => rfl⟩
  · have hmends := hmends fixed hfixed
    have hplain := hmends.plain (not_mem_unifyLineEnds text)
    obtain ⟨s', hs', hfile', hframe⟩ := Store.writeText_file hp hfile hdenied fixed
    rw [hwrite, change, hs'] at hlint
    refine ⟨o, s', _, fixed, .inl hlint, hfile', Utf8.decode_encode fixed, hframe, ?_, .inr hplain,
      fun heq => ?_, ?_⟩
    · rwa [unifyLineEnds_eq hplain]
    · refine .inr fun hr => hplain ?_
      rwa [← mem_stripFrom true, ← withoutMargins, heq, withoutMargins, mem_stripFrom]
    · rintro (hbytes | hr)
      · have hsame := Utf8.decode_encode fixed
        rw [hbytes, htext] at hsame
        rw [Except.ok.inj hsame]
      · rw [unifyLineEnds_eq hr] at hmends
        exact hmends.withoutMargins hr

/-- A store with one file in the working directory. -/
def singleFile (name : String) (text : List Char) : Store where
  here := []
  entries := [([name], .file (Utf8.encode text))]

theorem get?_singleFile (name : String) (text : List Char) :
    (singleFile name text).get? [name] = some (.file (Utf8.encode text)) := by
  simp [singleFile, Store.get?]

/-- A file with one line that is not indented, and with line feeds only. -/
theorem lintFiles_rewrites_lineFeeds :
    ∃ (o : Outcome) (s' : Store) (bytes' : ByteArray) (text' : List Char),
      lintFiles { settings := {}, fix := true } none [⟨"", ["a.html"]⟩]
        (singleFile "a.html" "<div>\n<p></p>\n</div>\n".toList) = .ok [o] s' ∧
      s'.get? ["a.html"] = some (.file bytes') ∧ Utf8.decode bytes' = .ok text' ∧
      withoutMargins text' = withoutMargins "<div>\n<p></p>\n</div>\n".toList := by
  obtain ⟨o, s', bytes', text', h1, h2, h3, -, -, -, h4⟩ :=
    @lintFiles_rewrites { settings := {}, fix := true } _ ⟨"", ["a.html"]⟩ _ _ _ rfl rfl
      (get?_singleFile "a.html" "<div>\n<p></p>\n</div>\n".toList) (Utf8.decode_encode _)
  have hopen : ["a.html"] ∉ (singleFile "a.html" "<div>\n<p></p>\n</div>\n".toList).unwritable :=
    List.not_mem_nil
  exact ⟨o, s', bytes', text', h1.resolve_right fun h => hopen h.1, h2, h3,
    h4.mpr (.inr (by decide))⟩

/-- The same file with carriage returns: they are gone from all its lines. -/
theorem lintFiles_rewrites_carriageReturns :
    ∃ (o : Outcome) (s' : Store) (bytes' : ByteArray),
      lintFiles { settings := {}, fix := true } none [⟨"", ["a.html"]⟩]
        (singleFile "a.html" "<div>\r\n<p></p>\r\n</div>\r\n".toList) = .ok [o] s' ∧
      s'.get? ["a.html"] = some (.file bytes') ∧
      Utf8.decode bytes' = .ok "<div>\n  <p></p>\n</div>\n".toList ∧
      withoutMargins "<div>\n  <p></p>\n</div>\n".toList ≠
        withoutMargins "<div>\r\n<p></p>\r\n</div>\r\n".toList := by
  have hfile := get?_singleFile "a.html" "<div>\r\n<p></p>\r\n</div>\r\n".toList
  have hread := Store.readText_file (s := singleFile "a.html" _) (p := ⟨"", ["a.html"]⟩) rfl hfile
    List.not_mem_nil (Utf8.decode_encode _)
  have hmended : (lintText { settings := {}, fix := true } "a.html"
      (unifyLineEnds "<div>\r\n<p></p>\r\n</div>\r\n".toList)).map Outcome.fixedText =
        .ok (some "<div>\n  <p></p>\n</div>\n".toList) := by decide +kernel
  obtain ⟨o, ho, hfixed⟩ := Markup.map_eq_ok.mp hmended
  obtain ⟨s', hs', hfile', -⟩ := Store.writeText_file (s := singleFile "a.html" _)
    (p := ⟨"", ["a.html"]⟩) rfl hfile List.not_mem_nil "<div>\n  <p></p>\n</div>\n".toList
  refine ⟨o, s', _, ?_, hfile', Utf8.decode_encode _, by decide⟩
  rw [lintFiles_single hread ho, writeFixed, hfixed]
  have hne : "<div>\n  <p></p>\n</div>\n".toList ≠
      unifyLineEnds "<div>\r\n<p></p>\r\n</div>\r\n".toList := by decide
  simp only [if_neg hne, change, hs', EStateM.map]

end MarkupIndent.Lint
