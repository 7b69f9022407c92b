import MarkupIndent.Proofs.Linting

/-!
# Leaving reports out

Reports may be left out before a text is mended. Every report has one edit, of the margin of its own
line, and what a line is mended to depends on that edit alone. So a line is mended as if nothing was
left out, or it stays as it is.

* `mendLine_of_subset`: lines with an edit are mended alike by more edits.
* `lintText_mended`: the outcome of mending, for any reports that are left out.
* `lintText_leaves_out`: **leaving reports out is a matter of their lines**.
-/

namespace MarkupIndent.Margin

open Markup Text

/-- A line with an edit is mended by that edit, whatever other lines are mended too. -/
theorem mendLine_of_subset {es fs : List Edit} {text : List Char} (hsub : es ⊆ fs)
    (hunique : ∀ a ∈ fs, ∀ b ∈ fs, a.line text = b.line text → a = b) {e : Edit} (he : e ∈ es)
    (line : List Char) :
    mendLine es text (e.line text) line = mendLine fs text (e.line text) line := by
  rw [mendLine_of_mem he rfl fun f hf hline => hunique f (hsub hf) e (hsub he) hline,
    mendLine_of_mem (hsub he) rfl fun f hf hline => hunique f hf e (hsub he) hline]

section Edits

variable {l : Layout} {records : List LineRecord} (hl : ∀ r ∈ records, ∃ root, l.Grounded root)
  (hrec : ∀ r ∈ records, l.Recorded r)
include hl hrec

/-- A line has one edit of a record at most. -/
theorem line_unique_records (hsub : (records.map LineRecord.token).Sublist l.graph.heads.lineHeads)
    {es : List Edit} (hes : ∀ e ∈ es, ∃ r ∈ records, e = r.mismatch.edit) :
    ∀ a ∈ es, ∀ b ∈ es, a.line l.document.text = b.line l.document.text → a = b := by
  intro a ha b hb hab
  obtain ⟨r, hr, rfl⟩ := hes a ha
  obtain ⟨q, hq, rfl⟩ := hes b hb
  have hline : ∀ p ∈ records, p.mismatch.edit.line l.document.text = p.line := fun p hp =>
    (edits_of_recorded (hl p hp).choose_spec (hrec p hp)).line
  rw [hline r hr, hline q hq] at hab
  by_contra hne
  rcases mem_order (apart_edits hl hrec hsub) hr hq fun h => hne (h ▸ rfl) with h | h <;> omega

/-- The edits of some reports are those of lines with such a report. -/
theorem edits_reports_spec {reports : List Report}
    (hreports : reports ⊆ (mismatches records).map (Mismatch.report l.unit)) :
    (∀ e ∈ reports.flatMap Report.edits, ∃ q ∈ records, e = q.mismatch.edit) ∧
      (∀ e ∈ reports.flatMap Report.edits, ∃ r ∈ reports,
        r.location.line = e.line l.document.text) ∧
      ∀ r ∈ reports, ∃ e ∈ reports.flatMap Report.edits,
        e.line l.document.text = r.location.line := by
  have key : ∀ r ∈ reports, ∃ q ∈ records, r.edits = [q.mismatch.edit] ∧
      q.mismatch.edit.line l.document.text = r.location.line := by
    intro r hr
    obtain ⟨m, hm, rfl⟩ := List.mem_map.mp (hreports hr)
    obtain ⟨q, hq, -, rfl⟩ := mem_mismatches.mp hm
    exact ⟨q, hq, rfl, (edits_of_recorded (hl q hq).choose_spec (hrec q hq)).line⟩
  refine ⟨fun e he => ?_, fun e he => ?_, fun r hr => ?_⟩
  · obtain ⟨r, hr, her⟩ := List.mem_flatMap.mp he
    obtain ⟨q, hq, hedits, -⟩ := key r hr
    exact ⟨q, hq, List.mem_singleton.mp (hedits ▸ her)⟩
  · obtain ⟨r, hr, her⟩ := List.mem_flatMap.mp he
    obtain ⟨q, -, hedits, hline⟩ := key r hr
    rw [hedits, List.mem_singleton] at her
    exact ⟨r, hr, by rw [her, hline]⟩
  · obtain ⟨q, -, hedits, hline⟩ := key r hr
    exact ⟨_, List.mem_flatMap.mpr ⟨r, hr, by rw [hedits]; exact List.mem_singleton_self _⟩, hline⟩

end Edits

end MarkupIndent.Margin

namespace MarkupIndent.Lint

open Margin Markup Settings Text

/-- **The outcome of mending** a document with settings that mean something: the reports that are
not left out, and the text in which their lines are mended. -/
theorem lintText_mended (job : Job) {text : List Char} {d : Document} {l : Layout}
    {records : List LineRecord} (hd : Document.read text = .ok d) (hr : job.registry.Descends)
    (hl : Layout.ofSettings d job.settings job.registry = .ok l)
    (hrecords : l.records = .ok records)
    (hfix : job.fix = true) {reports kept : List Report}
    (hreports : reports = (mismatches records).map (Mismatch.report l.unit))
    (hkept : kept = reports.filter fun r => !job.isSuppressed r) (document : String) :
    ∃ fixed, lintText job document text =
        .ok ⟨document, kept, reports.length - kept.length, records.length, none, some fixed⟩ ∧
      applyEdits text (kept.flatMap Report.edits) = .ok fixed ∧
      fixed.splitOn '\n' = (text.splitOn '\n').mapIdx fun n line =>
        mendLine (kept.flatMap Report.edits) text (n + 1) line := by
  obtain ⟨records', hrecords', hrec, hsub, -⟩ := records_spec hd hr hl
  obtain rfl := Except.ok.inj (hrecords.symm.trans hrecords')
  obtain ⟨hdoc, -⟩ := ofSettings_spec hd hr hl
  obtain rfl : l.document.text = text := by rw [hdoc, text_of_read hd]
  have hgr : ∀ r ∈ records, ∃ root, l.Grounded root := fun r hrm =>
    grounded_of_recorded hd hr hl (hrec r hrm)
  have hsublist : kept.Sublist reports := hkept ▸ List.filter_sublist
  have hnodup : (kept.flatMap Report.edits).Nodup :=
    (hreports ▸ nodup_edits hgr hrec hsub).sublist (hsublist.flatMap Report.edits)
  obtain ⟨hes, -⟩ := edits_reports_spec hgr hrec (hreports ▸ hsublist.subset)
  obtain ⟨fixed, happly, -, hlines⟩ := applyEdits_records hgr hrec hsub hes hnodup
  refine ⟨fixed, ?_, happly, hlines⟩
  simp only [lintText, hd, check, hl, hrecords, bind, Except.bind, ← hreports, Job.outcome, ← hkept,
    hfix, happly, Except.map, Bool.false_eq_true, if_false, if_true]

/-- **Leaving reports out is a matter of their lines.** With settings that mean something, linting
with mending keeps exactly the reports that are not left out, in order, and counts the others; as
many lines are checked as without leaving any out. A line whose report is kept is as in the text in
which everything is mended, and every other line is as it was. -/
theorem lintText_leaves_out {text : List Char} {d : Document} {s : Settings} {unit : IndentUnit}
    (hd : Document.read text = .ok d)
    (hu : IndentUnit.ofValue s.indentUnit s.mixedAlignment = .ok unit)
    (hsize : d.tokens.size ≤ s.maxTokens) (isSuppressed : Report → Bool) (document : String) :
    ∃ (result : CheckResult) (all kept : Outcome) (mended fixed : List Char),
      check d s .default = .ok result ∧
      lintText { settings := s, fix := true } document text = .ok all ∧
      lintText { settings := s, isSuppressed := isSuppressed, fix := true } document text =
        .ok kept ∧
      all.error = none ∧ all.reports = result.reports ∧ all.suppressed = 0 ∧
      kept.error = none ∧ kept.reports = result.reports.filter (fun r => !isSuppressed r) ∧
      kept.reports.length + kept.suppressed = all.reports.length ∧
      kept.linesChecked = all.linesChecked ∧
      all.fixedText = some mended ∧ kept.fixedText = some fixed ∧
      (fixed.splitOn '\n').length = (text.splitOn '\n').length ∧
      ∀ n : Nat,
        ((∃ r ∈ kept.reports, r.location.line = n + 1) →
          (fixed.splitOn '\n')[n]? = (mended.splitOn '\n')[n]?) ∧
        ((∀ r ∈ kept.reports, r.location.line ≠ n + 1) →
          (fixed.splitOn '\n')[n]? = (text.splitOn '\n')[n]?) := by
  obtain ⟨l, hl, -⟩ := ofSettings_ok hd descends_default hu hsize
  obtain ⟨records, hrecords, hrec, hsub, -⟩ := records_spec hd descends_default hl
  obtain ⟨hdoc, -⟩ := ofSettings_spec hd descends_default hl
  have hgr : ∀ r ∈ records, ∃ root, l.Grounded root := fun r hr =>
    grounded_of_recorded hd descends_default hl (hrec r hr)
  have htext : l.document.text = text := by rw [hdoc, text_of_read hd]
  generalize hreports : (mismatches records).map (Mismatch.report l.unit) = reports
  generalize hkept : reports.filter (fun r => !isSuppressed r) = kept
  have hsublist : kept.Sublist reports := hkept ▸ List.filter_sublist
  have hall : reports.filter (fun _ => !false) = reports := List.filter_eq_self.mpr fun _ _ => rfl
  obtain ⟨mended, h1, -, h2⟩ := lintText_mended { settings := s, fix := true } hd descends_default
    hl hrecords rfl hreports.symm hall.symm document
  obtain ⟨fixed, h3, -, h4⟩ := lintText_mended
    { settings := s, isSuppressed := isSuppressed, fix := true } hd descends_default hl hrecords rfl
    hreports.symm hkept.symm document
  obtain ⟨hes, -⟩ := edits_reports_spec hgr hrec (fun r hr => hreports ▸ hr)
  obtain ⟨-, hlines, hedits⟩ := edits_reports_spec hgr hrec (hreports ▸ hsublist.subset)
  have hunique := line_unique_records hgr hrec hsub hes
  rw [htext] at hlines hedits hunique
  refine ⟨⟨reports, records.length, false⟩, _, _, mended, fixed, ?_, h1, h3, rfl, rfl,
    Nat.sub_self _, rfl, hkept.symm, ?_, rfl, rfl, rfl, by rw [h4, List.length_mapIdx], ?_⟩
  · simp only [check, hl, hrecords, bind, Except.bind, hreports]
  · have := hsublist.length_le
    simp only
    omega
  intro n
  rw [h2, h4, List.getElem?_mapIdx, List.getElem?_mapIdx]
  constructor
  · rintro ⟨r, hr, hline⟩
    obtain ⟨e, he, heline⟩ := hedits r hr
    rw [← hline, ← heline]
    refine congrArg (Option.map · _) (funext fun line => ?_)
    exact mendLine_of_subset (hsublist.flatMap Report.edits).subset hunique he line
  · intro hnone
    have hid : mendLine (kept.flatMap Report.edits) text (n + 1) = id := by
      refine funext fun line => mendLine_of_none (fun e he heline => ?_) line
      obtain ⟨r, hr, hrline⟩ := hlines e he
      exact hnone r hr (hrline.trans heline)
    rw [hid, Option.map_id]
    rfl

/-- Two paragraphs that are not indented, the report of the first left out: its line stays. -/
theorem lintText_leaves_out_paragraph :
    ∃ (d : Document) (all kept : Outcome) (fixed : List Char),
      Document.read "<div>\n<p>x</p>\n<p>y</p>\n</div>\n".toList = .ok d ∧
      IndentUnit.ofValue (.int 2) false = .ok ⟨.spaces 2, false⟩ ∧
      (d.tokens.size : Int) ≤ Settings.defaultMaxTokens ∧
      lintText { settings := {}, fix := true } anonymous
        "<div>\n<p>x</p>\n<p>y</p>\n</div>\n".toList = .ok all ∧
      lintText { settings := {}, isSuppressed := fun r => r.location.line == 2, fix := true }
        anonymous "<div>\n<p>x</p>\n<p>y</p>\n</div>\n".toList = .ok kept ∧
      kept.reports.length + kept.suppressed = all.reports.length ∧
      kept.fixedText = some fixed ∧
      (fixed.splitOn '\n')[1]? = some "<p>x</p>".toList := by
  cases hd : Document.read "<div>\n<p>x</p>\n<p>y</p>\n</div>\n".toList with
  | error e =>
    have h : (Document.read "<div>\n<p>x</p>\n<p>y</p>\n</div>\n".toList).isOk = true := by
      decide +kernel
    rw [hd] at h
    cases h
  | ok d =>
    have hsize : (Document.read "<div>\n<p>x</p>\n<p>y</p>\n</div>\n".toList).map
        (fun d => d.tokens.size) = .ok 24 := by decide +kernel
    rw [hd] at hsize
    have hlimit : (d.tokens.size : Int) ≤ Settings.defaultMaxTokens := by
      rw [show d.tokens.size = 24 from Except.ok.inj hsize]
      decide
    obtain ⟨result, all, kept, mended, fixed, -, hall, hkept, -, -, -, -, hreports, hcount, -, -,
      hfixed, -, hlines⟩ :=
      @lintText_leaves_out _ d {} _ hd rfl hlimit (fun r => r.location.line == 2) anonymous
    refine ⟨d, all, kept, fixed, rfl, rfl, hlimit, hall, hkept, hcount, hfixed, ?_⟩
    rw [(hlines 1).2 fun r hr => by
      rw [hreports, List.mem_filter] at hr
      simpa using hr.2]
    decide +kernel

end MarkupIndent.Lint
