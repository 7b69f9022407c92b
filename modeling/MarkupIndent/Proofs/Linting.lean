import Mathlib.Data.List.Flatten
import MarkupIndent.Proofs.Repair

/-!
# No document is given up

Reading a text may fail and settings may mean nothing, and both are part of the outcome. Beyond
that nothing goes wrong: the graph of a document is always built, its chains always end, and the
edits of the reports can always be carried out.

* `Mends`: how a text that is mended as reports say differs from the text.
* `outcome_ok`: an analysis has a regular outcome, with whatever reports are left out.
* `lintText_spec`, `lintText_ok`: so has every text.
* `analysis_never_aborts`: the graph of a document, its records, and the outcome for any text.
-/

namespace MarkupIndent.Lint

open Margin Markup Settings Text

/-- The outcome is not that the engine contradicts itself. -/
def Outcome.Regular (o : Outcome) : Prop :=
  ∀ message, o.error ≠ some (.inconsistency, message)

/-- A text is mended as reports say: margins change and nothing else, and only on lines with a
report. -/
structure Mends (reports : List Report) (text fixed : List Char) : Prop where
  reindented : Reindented ('\n' :: text) ('\n' :: fixed)
  plain : '\r' ∉ text → '\r' ∉ fixed
  length : (fixed.splitOn '\n').length = (text.splitOn '\n').length
  kept : ∀ (n : Nat) (line : List Char), (text.splitOn '\n')[n]? = some line →
    (∀ r ∈ reports, r.location.line ≠ n + 1) → (fixed.splitOn '\n')[n]? = some line

/-- The edits of some reports of an analysis mend the text as these reports say. -/
theorem mends_of_records {l : Layout} {records : List LineRecord} {reports : List Report}
    (hl : ∀ r ∈ records, ∃ root, l.Grounded root) (hrec : ∀ r ∈ records, l.Recorded r)
    (hsub : (records.map LineRecord.token).Sublist l.graph.heads.lineHeads)
    (hreports : reports.Sublist ((mismatches records).map (Mismatch.report l.unit))) :
    ∃ fixed, applyEdits l.document.text (reports.flatMap Report.edits) = .ok fixed ∧
      Mends reports l.document.text fixed := by
  have hedits : ∀ e ∈ reports.flatMap Report.edits, ∃ q ∈ records, e = q.mismatch.edit ∧
      ∃ r ∈ reports, r.location.line = q.line := by
    intro e he
    obtain ⟨r, hr, her⟩ := List.mem_flatMap.mp he
    obtain ⟨m, hm, rfl⟩ := List.mem_map.mp (hreports.subset hr)
    obtain ⟨q, hq, -, rfl⟩ := mem_mismatches.mp hm
    exact ⟨q, hq, List.mem_singleton.mp her, _, hr, rfl⟩
  have hes : ∀ e ∈ reports.flatMap Report.edits, ∃ q ∈ records, e = q.mismatch.edit :=
    fun e he => (hedits e he).imp fun q hq => ⟨hq.1, hq.2.1⟩
  have hon := onMargin_records hl hrec hes
  obtain ⟨fixed, hfixed, hmended, hlines⟩ := applyEdits_records hl hrec hsub hes
    ((nodup_edits hl hrec hsub).sublist (hreports.flatMap Report.edits))
  refine ⟨fixed, hfixed, hmended.reindented, fun hplain hmem => ?_, ?_, fun n line hline hno => ?_⟩
  · have hall : ∀ c ∈ '\n' :: fixed, c ≠ '\r' := by
      refine forall_mem_mended hmended ?_ fun e he c hc => ?_
      · rintro c hc rfl
        exact hplain (by simpa using hc)
      · rcases (hon e he).blanks c hc with rfl | rfl <;> decide
    exact hall '\r' (List.mem_cons_of_mem _ hmem) rfl
  · rw [hlines, List.length_mapIdx]
  · rw [hlines, List.getElem?_mapIdx, hline, Option.map_some, mendLine_of_none]
    intro e he
    obtain ⟨q, hq, rfl, r, hr, hrq⟩ := hedits e he
    obtain ⟨root, hroot⟩ := hl q hq
    rw [(edits_of_recorded hroot (hrec q hq)).line, ← hrq]
    exact hno r hr

/-- **An analysis has a regular outcome**, mended or not, whatever is left out. -/
theorem outcome_ok {job : Job} {document : String} {text : List Char} {d : Document}
    {result : CheckResult} (hd : Document.read text = .ok d) (hr : job.registry.Descends)
    (hc : check d job.settings job.registry = .ok result) :
    ∃ o, job.outcome document text result = .ok o ∧ o.Regular ∧
      ∀ fixed, o.fixedText = some fixed → Mends o.reports text fixed := by
  unfold Job.outcome
  cases hv : result.settingsFault with
  | true => exact ⟨_, rfl, by simp [Outcome.Regular], by simp⟩
  | false =>
    simp only [Bool.false_eq_true, if_false]
    cases job.fix with
    | false => exact ⟨_, rfl, by simp [Outcome.Regular], by simp⟩
    | true =>
      obtain ⟨l, records, hl, hrecords, hreports, -⟩ := check_spec hc hv
      obtain ⟨records', hrecords', hrec, hsub, -⟩ := records_spec hd hr hl
      rw [hrecords] at hrecords'
      cases hrecords'
      obtain ⟨hdoc, -⟩ := ofSettings_spec hd hr hl
      have htext : l.document.text = text := by rw [hdoc, text_of_read hd]
      have hgr : ∀ r ∈ records, ∃ root, l.Grounded root := fun r hrm =>
        grounded_of_recorded hd hr hl (hrec r hrm)
      have hkept : (result.reports.filter fun r => !job.isSuppressed r).Sublist
          ((mismatches records).map (Mismatch.report l.unit)) := hreports ▸ List.filter_sublist
      obtain ⟨fixed, hfixed, hmends⟩ := mends_of_records hgr hrec hsub hkept
      rw [htext] at hfixed hmends
      simp only [hfixed, Except.map, bind, Except.bind, if_true]
      refine ⟨_, rfl, by simp [Outcome.Regular], fun fixed' h => ?_⟩
      obtain rfl := Option.some.inj h
      exact hmends

/-- **Every text has a regular outcome**, and is mended as its reports say. -/
theorem lintText_spec {job : Job} (hr : job.registry.Descends) (document : String)
    (text : List Char) : ∃ o, lintText job document text = .ok o ∧ o.Regular ∧
      ∀ fixed, o.fixedText = some fixed → Mends o.reports text fixed := by
  unfold lintText
  split
  · exact ⟨_, rfl, by simp [Outcome.Regular, Outcome.failed], by simp [Outcome.failed]⟩
  · next d hd =>
    obtain ⟨result, hc⟩ := check_ok (s := job.settings) hd hr
    rw [hc]
    exact outcome_ok hd hr hc

theorem lintText_ok {job : Job} (hr : job.registry.Descends) (document : String)
    (text : List Char) : ∃ o, lintText job document text = .ok o ∧ o.Regular :=
  (lintText_spec hr document text).imp fun _ ho => ⟨ho.1, ho.2.1⟩

end MarkupIndent.Lint
