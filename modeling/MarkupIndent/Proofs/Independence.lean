import MarkupIndent.Proofs.AuditTrail

/-!
# Files are linted independently

A run lints one file after the other in one store. It may write a file, and it adds a line to the
log for each, so what it has done stands between the store that it began with and the files that are
still to come. It makes no difference to them: files are told apart by their places, the log is none
of them, and writing leaves every path where it led. A file that is to be written and cannot be
stops the run, and the files after it are not linted.

* `outcomeAt`: the outcome of one file by itself.
* `Rewrites`: when a file is written.
* `Fits`: a path that can name a file, which can be written if it is to be.
* `Trail.Clear`: a log that is none of the files.
* `lintText_cases`: what an outcome can be; `lintText_frame`: what one with an error leaves out.
* `lintText_counts`: an outcome counts no more than the text has characters.
* `lintFile_spec`: one file in the course of a run.
* `lintEach_spec`: files in a given order, by induction.
* `lintEach_stops`: **a file that cannot be written stops the run**.
* `lintEach_alias`: a second name of a file, as the first one has left it.
* `lintFiles_independent`: **a run over any files**.
-/

namespace MarkupIndent.Lint

open Files Margin Markup Settings Text

/-! ## Outcomes with an error -/

/-- The report of settings that mean nothing has no edits. -/
theorem edits_of_settingsFault {d : Document} {settings : Settings} {registry : Registry}
    {result : CheckResult} (h : check d settings registry = .ok result)
    (hfault : result.settingsFault = true) : ∀ r ∈ result.reports, r.edits = [] := by
  unfold check at h
  split at h
  · next fault _ =>
    split at h
    · cases h
      intro r hr
      rw [List.mem_singleton.mp hr]
    · cases h
  · obtain ⟨records, -, h⟩ := bind_eq_ok.mp h
    cases h
    cases hfault

/-- **What an outcome can be**: that of a text that was not analysed, of settings that mean nothing,
or of an analysis. -/
theorem lintText_cases {job : Job} {document : String} {text : List Char} {o : Outcome}
    (h : lintText job document text = .ok o) :
    (∃ code message, o = .failed document code message) ∨
    ∃ d result, Document.read text = .ok d ∧ check d job.settings job.registry = .ok result ∧
      (result.settingsFault = true ∧
          (∃ error, o = ⟨document, result.reports, 0, 0, some error, none⟩) ∨
        result.settingsFault = false ∧ ∃ kept fixed,
          kept = result.reports.filter (fun r => !job.isSuppressed r) ∧
          (job.fix = false → fixed = none) ∧
          o = ⟨document, kept, result.reports.length - kept.length, result.linesChecked, none,
            fixed⟩) := by
  unfold lintText at h
  split at h
  · cases h
    exact .inl ⟨_, _, rfl⟩
  next d hd =>
  split at h
  · next result hcheck =>
    refine .inr ⟨d, result, hd, hcheck, ?_⟩
    unfold Job.outcome at h
    split at h
    · next hfault =>
      cases h
      exact .inl ⟨hfault, _, rfl⟩
    · next hfault =>
      refine .inr ⟨(Bool.not_eq_true _).mp hfault, ?_⟩
      cases hfix : job.fix with
      | false =>
        rw [hfix] at h
        cases h
        exact ⟨_, none, rfl, fun _ => rfl, rfl⟩
      | true =>
        rw [hfix] at h
        obtain ⟨fixed, -, h⟩ := bind_eq_ok.mp h
        cases h
        exact ⟨_, fixed, rfl, fun hno => (by cases hno), rfl⟩
  · split at h
    · cases h
      exact .inl ⟨_, _, rfl⟩
    · cases h

/-- **An outcome with an error** has no text, no lines and no edits, and a text is mended only if it
was asked for. -/
theorem lintText_frame {job : Job} {document : String} {text : List Char} {o : Outcome}
    (h : lintText job document text = .ok o) :
    o.document = document ∧
      (o.error ≠ none → o.fixedText = none ∧ o.linesChecked = 0 ∧ ∀ r ∈ o.reports, r.edits = []) ∧
      (job.fix = false → o.fixedText = none) := by
  rcases lintText_cases h with ⟨code, message, rfl⟩ |
    ⟨d, result, -, hcheck, ⟨hfault, error, rfl⟩ | ⟨-, kept, fixed, -, hfixed, rfl⟩⟩
  · simp [Outcome.failed]
  · exact ⟨rfl, fun _ => ⟨rfl, rfl, edits_of_settingsFault hcheck hfault⟩, fun _ => rfl⟩
  · exact ⟨rfl, fun hne => absurd rfl hne, hfixed⟩

/-! ## What an outcome counts -/

/-- No number of an outcome is greater than `n`. -/
structure Outcome.Counts (o : Outcome) (n : Nat) : Prop where
  linesChecked : o.linesChecked ≤ n
  reports : o.reports.length ≤ n
  suppressed : o.suppressed ≤ n

theorem counts_failed (document : String) (code : ErrorCode) (message : String) (n : Nat) :
    (Outcome.failed document code message).Counts n :=
  ⟨Nat.zero_le n, Nat.zero_le n, Nat.zero_le n⟩

/-- A text has no more tokens than characters. -/
theorem size_le_length {text : List Char} {tokens : Array Token} {upTo : Nat}
    (h : Tokenized text upTo tokens) : tokens.size ≤ text.length := by
  have hstart : ∀ (i : Nat) (t : Token), tokens[i]? = some t → i ≤ t.start := by
    intro i
    induction i with
    | zero => exact fun _ _ => Nat.zero_le _
    | succ i ih =>
      intro t ht
      obtain ⟨u, hu⟩ : ∃ u, tokens[i]? = some u := by
        have := (Array.getElem?_eq_some_iff.mp ht).1
        exact ⟨tokens[i], Array.getElem?_eq_getElem (by omega)⟩
      have hbefore := h.ordered i (i + 1) u t (Nat.lt_succ_self i) hu ht
      have := (h.token i u hu).lt
      have := ih u hu
      omega
  rcases Nat.eq_zero_or_pos tokens.size with hzero | hpos
  · omega
  · have hlast : tokens[tokens.size - 1]? = some tokens[tokens.size - 1] :=
      Array.getElem?_eq_getElem (by omega)
    have htoken := h.token _ _ hlast
    have := hstart _ _ hlast
    have := htoken.lt
    have := htoken.le
    omega

/-- An analysis has no more records than the text has characters. -/
theorem check_counts {d : Document} {text : List Char} {settings : Settings} {registry : Registry}
    (hd : Document.read text = .ok d) (hr : registry.Descends) {result : CheckResult}
    (h : check d settings registry = .ok result) (hv : result.settingsFault = false) :
    result.linesChecked ≤ text.length ∧ result.reports.length ≤ text.length := by
  obtain ⟨l, records, hl, hrecords, hreports, hlines⟩ := check_spec h hv
  obtain ⟨records', hrecords', -, hsub, -⟩ := records_spec hd hr hl
  rw [hrecords] at hrecords'
  cases hrecords'
  obtain ⟨-, hheads, -⟩ := ofSettings_spec hd hr hl
  have hlength : records.length ≤ text.length :=
    calc records.length = (records.map LineRecord.token).length := (List.length_map _).symm
      _ ≤ l.graph.heads.lineHeads.length := hsub.length_le
      _ ≤ d.tokens.toList.length := by
        rw [hheads]
        exact List.length_filter_le _ _
      _ ≤ text.length := size_le_length (tokenized_of_read hd)
  have hmismatches : (mismatches records).length ≤ records.length := by
    rw [mismatches, List.length_map]
    exact List.length_filter_le _ _
  rw [hlines, hreports, List.length_map]
  omega

/-- The report of settings that mean nothing stands alone. -/
theorem length_of_settingsFault {d : Document} {settings : Settings} {registry : Registry}
    {result : CheckResult} (h : check d settings registry = .ok result)
    (hfault : result.settingsFault = true) : result.reports.length = 1 := by
  unfold check at h
  split at h
  · split at h
    · cases h
      rfl
    · cases h
  · obtain ⟨records, -, h⟩ := bind_eq_ok.mp h
    cases h
    cases hfault

/-- **An outcome counts no more than the text has characters**, one report apart. -/
theorem lintText_counts {job : Job} (hr : job.registry.Descends) {document : String}
    {text : List Char} {o : Outcome} (h : lintText job document text = .ok o) :
    o.Counts (text.length + 1) := by
  rcases lintText_cases h with ⟨code, message, rfl⟩ |
    ⟨d, result, hd, hcheck, ⟨hfault, error, rfl⟩ | ⟨hfault, kept, fixed, rfl, -, rfl⟩⟩
  · exact counts_failed _ _ _ _
  · have hone := length_of_settingsFault hcheck hfault
    exact ⟨Nat.zero_le _, by simp only [hone]; omega, Nat.zero_le _⟩
  · obtain ⟨hlines, hreports⟩ := check_counts hd hr hcheck hfault
    have hkept := List.length_filter_le (fun r => !job.isSuppressed r) result.reports
    constructor <;> simp only <;> omega

/-- **An outcome can be logged** if its numbers are small enough. -/
theorem Outcome.Counts.haveShort {o : Outcome} {n : Nat} (h : o.Counts n)
    (hn : n < 10 ^ maxDigits) (time : String) : Value.haveShort (o.event time).metadata = true := by
  have hshort : ∀ m : Nat, m ≤ n → Text.isShort m = true := fun m hm =>
    isShort_iff.mpr (Nat.lt_of_le_of_lt hm hn)
  simp only [Outcome.event, Value.haveShort, Value.isShort, hshort _ h.linesChecked,
    hshort _ h.reports, hshort _ h.suppressed, Bool.and_self]

/-! ## One file -/

/-- The outcome of a file by itself. -/
def outcomeAt (job : Job) (s : Store) (p : Path) : Except Fault Outcome :=
  match s.readText p with
  | .error fault => .ok (.failed p.toString .unreadable fault.message)
  | .ok text => lintText job p.toString text

/-- A file is written: mending was asked for, nothing is wrong, and the mended text is not the one
that was read. -/
structure Rewrites (job : Job) (s : Store) (p : Path) (o : Outcome) (fixed : List Char) : Prop where
  asked : job.fix = true
  regular : o.error = none
  mended : o.fixedText = some fixed
  changed : ∃ text, s.readText p = .ok text ∧ fixed ≠ text

/-- A path can name a file, and if it is to be written, its place is open to writing. -/
structure Fits (job : Job) (s : Store) (p : Path) : Prop where
  named : p.hasNull = false
  writable : ∀ o fixed place, outcomeAt job s p = .ok o → Rewrites job s p o fixed →
    s.resolve p = .ok place → place ∉ s.unwritable

/-- The place is that of the log. -/
def IsLog (s : Store) (trail : Option Trail) (place : Place) : Prop :=
  ∃ t ∈ trail, s.resolve t.path = .ok place

/-- A log that can be written and is none of the files of some paths. If it is to be made first, no
path goes through its place. The texts are not so long that counting their lines takes more digits
than can be written. -/
structure Trail.Clear (t : Trail) (s : Store) (paths : List Path) : Prop where
  writable : ∃ log, Audit.Open s t.path log
  other : ∀ p ∈ paths, ∀ log, s.resolve t.path = .ok log → s.resolve p ≠ .ok log
  aside : ∀ p ∈ paths, ∀ log, s.resolve t.path = .ok log → s.get? log = none → ¬ s.Through p log
  countable : ∀ p ∈ paths, ∀ text, s.readText p = .ok text → text.length + 1 < 10 ^ maxDigits

/-- Two paths are not the names of one file. -/
def Apart (s : Store) (p q : Path) : Prop :=
  ∀ place bytes, s.get? place = some (.file bytes) → s.resolve p = .ok place →
    s.resolve q ≠ .ok place

theorem outcomeAt_frame {job : Job} {s : Store} {p : Path} {o : Outcome}
    (h : outcomeAt job s p = .ok o) :
    o.document = p.toString ∧
      (o.error ≠ none → o.fixedText = none ∧ o.linesChecked = 0 ∧ ∀ r ∈ o.reports, r.edits = []) ∧
      (job.fix = false → o.fixedText = none) := by
  unfold outcomeAt at h
  split at h
  · cases h
    simp [Outcome.failed]
  · exact lintText_frame h

/-- What a text that was read makes a run write. -/
theorem rewrites_iff {job : Job} {s : Store} {p : Path} {o : Outcome} {text fixed : List Char}
    (ho : outcomeAt job s p = .ok o) (hread : s.readText p = .ok text) :
    Rewrites job s p o fixed ↔ o.fixedText = some fixed ∧ fixed ≠ text := by
  obtain ⟨-, herror, hfix⟩ := outcomeAt_frame ho
  constructor
  · rintro ⟨-, -, hmended, text', hread', hne⟩
    rw [hread] at hread'
    cases hread'
    exact ⟨hmended, hne⟩
  · rintro ⟨hmended, hne⟩
    refine ⟨?_, ?_, hmended, text, hread, hne⟩
    · cases hasked : job.fix with
      | true => rfl
      | false => rw [hfix hasked] at hmended; cases hmended
    · by_contra hregular
      rw [(herror hregular).1] at hmended
      cases hmended

/-- What is written is no other file. -/
theorem Rewrites.apart {job : Job} {s : Store} {p q : Path} {o : Outcome} {fixed : List Char}
    (h : Rewrites job s p o fixed) (hapart : job.fix = true → Apart s p q) {place : Place}
    (hp : s.resolve p = .ok place) : s.resolve q ≠ .ok place := by
  obtain ⟨text, htext, -⟩ := h.changed
  obtain ⟨place', bytes, hplace', hfile⟩ := Store.file_of_readText htext
  rw [hp] at hplace'
  cases hplace'
  exact hapart h.asked place bytes hfile hp

/-! ## A run -/

/-- An event of the log tells what an outcome is. -/
structure Outcome.ToldBy (o : Outcome) (e : Audit.Event) : Prop where
  document : e.document = o.document
  ok : e.ok = o.ok
  aborted : e.aborted = o.aborted
  errorCode : e.errorCode = o.error.map fun e => .whole e.1.label
  metadata : e.metadata = ([
    ("lines_checked", .int o.linesChecked),
    ("mismatches", .int o.reports.length),
    ("suppressed", .int o.suppressed),
    ("fixed", .bool o.fixedText.isSome)] : List (LooseText × Value))

/-- Some files were linted in the course of a run that began with the store `s`, which has made `t'`
of `t`: each has the outcome that it has by itself; those that are rewritten have their mended text;
all else is as it was; and the log goes on with an event for each outcome. -/
structure Linted (job : Job) (trail : Option Trail) (s : Store) (ps : List Path)
    (os : List Outcome) (t t' : Store) : Prop where
  outcomes : List.Forall₂ (fun p o => outcomeAt job s p = .ok o) ps os
  written : ∀ e ∈ ps.zip os, ∀ fixed place, Rewrites job s e.1 e.2 fixed →
    s.resolve e.1 = .ok place → t'.get? place = some (.file (Utf8.encode fixed))
  kept : ∀ place, ¬ IsLog s trail place →
    (∀ e ∈ ps.zip os, ∀ fixed, Rewrites job s e.1 e.2 fixed → s.resolve e.1 ≠ .ok place) →
      t'.get? place = t.get? place
  logged : ∀ tr ∈ trail, ∀ log, s.resolve tr.path = .ok log → ∃ events : List Audit.Event,
    List.Forall₂ Outcome.ToldBy os events ∧
      t'.bytesAt log = t.bytesAt log ++ Utf8.encode (events.flatMap Audit.Event.line)

namespace Linted

variable {job : Job} {trail : Option Trail} {s t t' t'' : Store}

theorem nil : Linted job trail s [] [] t t where
  outcomes := .nil
  written := by simp
  kept := fun _ _ _ => rfl
  logged := fun _ _ _ _ => ⟨[], .nil, ByteArray.append_empty.symm⟩

/-- One file after the other. What the first one has written stays, since it is neither that of the
log nor that of a later path. -/
theorem cons {p : Path} {o : Outcome} {ps : List Path} {os : List Outcome}
    (h : Linted job trail s [p] [o] t t') (h' : Linted job trail s ps os t' t'')
    (hp : ∀ fixed place, Rewrites job s p o fixed → s.resolve p = .ok place →
      ¬ IsLog s trail place ∧ ∀ q ∈ ps, s.resolve q ≠ .ok place) :
    Linted job trail s (p :: ps) (o :: os) t t'' where
  outcomes := .cons (List.forall₂_cons.mp h.outcomes).1 h'.outcomes
  written := by
    rw [List.zip_cons_cons, List.forall_mem_cons]
    refine ⟨fun fixed place hrw hplace => ?_, h'.written⟩
    obtain ⟨hlog, hother⟩ := hp fixed place hrw hplace
    rw [h'.kept place hlog fun e he _ _ => hother e.1 (List.of_mem_zip he).1]
    exact h.written (p, o) List.mem_cons_self fixed place hrw hplace
  kept := by
    intro place hlog hnot
    rw [List.zip_cons_cons, List.forall_mem_cons] at hnot
    rw [h'.kept place hlog hnot.2, h.kept place hlog (List.forall_mem_singleton.mpr hnot.1)]
  logged := by
    intro tr htr log hlog
    obtain ⟨events, htold, hbytes⟩ := h.logged tr htr log hlog
    obtain ⟨events', htold', hbytes'⟩ := h'.logged tr htr log hlog
    refine ⟨events ++ events', List.rel_append htold htold', ?_⟩
    rw [hbytes', hbytes, List.flatMap_append, Utf8.encode_append, ByteArray.append_assoc]

end Linted

section Run

variable {job : Job} {trail : Option Trail} {s : Store} {paths : List Path}
  (hclear : ∀ t ∈ trail, t.Clear s paths)
include hclear

/-- The place of the log is not that of a path. -/
theorem not_isLog {p : Path} (hp : p ∈ paths) {place : Place} (hplace : s.resolve p = .ok place) :
    ¬ IsLog s trail place := by
  rintro ⟨t, ht, hlog⟩
  exact (hclear t ht).other p hp place hlog hplace

/-- Adding an outcome to the log in the course of a run. -/
theorem record_spec {t : Store} (h : Store.Grown (IsLog s trail) s t) {o : Outcome}
    (ho : ∀ tr ∈ trail, Value.haveShort (o.event tr.time).metadata = true) :
    ∃ t', record o trail t = .ok () t' ∧ Store.Grown (IsLog s trail) s t' ∧
      (∀ place, ¬ IsLog s trail place → t'.get? place = t.get? place) ∧
      ∀ tr ∈ trail, ∀ log, s.resolve tr.path = .ok log →
        t'.bytesAt log = t.bytesAt log ++ Utf8.encode (o.event tr.time).line := by
  cases trail with
  | none => exact ⟨t, rfl, h, fun _ _ => rfl, by simp⟩
  | some tr =>
    obtain ⟨log, hlog, hdir, hopen⟩ := (hclear tr rfl).writable
    have hdir' : t.get? log ≠ some .directory := fun hd => hdir ((h.directory log).mp hd)
    have hne := Store.ne_nil_of_get? hdir
    -- the way to the log goes through directories, so it is still there
    have hresolve : t.resolve tr.path = .ok log := by
      rw [Store.resolve_grown h, hlog]
      intro place hthrough hnone
      rw [Store.directory_of_through hlog hthrough] at hnone
      cases hnone
    have hline : (o.event tr.time).line? = some (o.event tr.time).line := by
      rw [Audit.line?_eq, if_pos (ho tr rfl)]
    have hadd := Audit.addTo_ok hresolve hdir' (h.unwritable ▸ hopen) hline
    refine ⟨_, ?_, Store.grown_put h hdir' (fun _ => ⟨tr, rfl, hlog⟩)
      (t.bytesAt log ++ Utf8.encode (o.event tr.time).line), fun place hplace => ?_, ?_⟩
    · simp only [record, EStateM.adaptExcept, hadd]
    · rw [Store.get?_put t place _ hne, if_neg]
      rintro rfl
      exact hplace ⟨tr, rfl, hlog⟩
    · rintro tr' ⟨⟩ log' hlog'
      rw [hlog] at hlog'
      cases hlog'
      rw [Store.bytesAt, Store.get?_put t log _ hne, if_pos rfl]

/-- A path leads in the course of a run where it led at its beginning. -/
theorem resolve_run {t : Store} (h : Store.Grown (IsLog s trail) s t) {p : Path} (hp : p ∈ paths) :
    t.resolve p = s.resolve p := by
  refine Store.resolve_grown h ?_
  rintro place hthrough hnone ⟨tr, htr, hlog⟩
  exact (hclear tr htr).aside p hp place hlog hnone hthrough

/-- Writing a file in the course of a run, if it is to be written. -/
theorem writeFixed_spec {t : Store} (h : Store.Grown (IsLog s trail) s t) {p : Path}
    (hp : p ∈ paths) (hfits : Fits job s p) {text : List Char} {o : Outcome}
    (hread : s.readText p = .ok text) (ho : outcomeAt job s p = .ok o) :
    ∃ t', writeFixed p text o t = .ok () t' ∧ Store.Grown (IsLog s trail) s t' ∧
      (∀ fixed place, Rewrites job s p o fixed → s.resolve p = .ok place →
        t'.get? place = some (.file (Utf8.encode fixed))) ∧
      ∀ place, (∀ fixed, Rewrites job s p o fixed → s.resolve p ≠ .ok place) →
        t'.get? place = t.get? place := by
  obtain ⟨place, bytes, hplace, hfile⟩ := Store.file_of_readText hread
  by_cases hrw : ∃ fixed, Rewrites job s p o fixed
  · obtain ⟨fixed, hrw⟩ := hrw
    obtain ⟨hmended, hne⟩ := (rewrites_iff ho hread).mp hrw
    have hresolve := (resolve_run hclear h hp).trans hplace
    have hdir : t.get? place ≠ some .directory := fun hdir =>
      Store.not_directory hfile ((h.directory place).mp hdir)
    have hroot := Store.ne_nil_of_get? hdir
    have hopen : place ∉ t.unwritable :=
      h.unwritable ▸ hfits.writable o fixed place ho hrw hplace
    refine ⟨t.put place (.file (Utf8.encode fixed)), ?_, Store.grown_put h hdir ?_ _, ?_, ?_⟩
    · simp only [writeFixed, hmended, if_neg hne, change, Store.writeText,
        Store.changeFile_ok hresolve hdir hopen]
    · intro hnone
      rw [hnone] at hfile
      cases hfile
    · rintro fixed' place' hrw' hplace'
      rw [hplace] at hplace'
      cases hplace'
      rw [Store.get?_put t place _ hroot, if_pos rfl,
        Option.some.inj (hrw.mended.symm.trans hrw'.mended)]
    · intro other hother
      rw [Store.get?_put t other _ hroot, if_neg]
      rintro rfl
      exact hother fixed hrw hplace
  · refine ⟨t, ?_, h, fun fixed _ hfixed => absurd ⟨fixed, hfixed⟩ hrw, fun _ _ => rfl⟩
    cases hmended : o.fixedText with
    | none =>
      simp only [writeFixed, hmended]
      rfl
    | some fixed =>
      have hsame : fixed = text := by
        by_contra hne
        exact hrw ⟨fixed, (rewrites_iff ho hread).mpr ⟨hmended, hne⟩⟩
      simp only [writeFixed, hmended, if_pos hsame]
      rfl

/-- What one file makes of a store: its outcome is added to the log, and then the file may be
written. -/
theorem linted_of_record {t t₁ t' : Store} {p : Path} (hp : p ∈ paths) {o : Outcome}
    (ho : outcomeAt job s p = .ok o)
    (hlog : ∀ place, ¬ IsLog s trail place → t₁.get? place = t.get? place)
    (hlogged : ∀ tr ∈ trail, ∀ log, s.resolve tr.path = .ok log →
      t₁.bytesAt log = t.bytesAt log ++ Utf8.encode (o.event tr.time).line)
    (hwritten : ∀ fixed place, Rewrites job s p o fixed → s.resolve p = .ok place →
      t'.get? place = some (.file (Utf8.encode fixed)))
    (hkept : ∀ place, (∀ fixed, Rewrites job s p o fixed → s.resolve p ≠ .ok place) →
      t'.get? place = t₁.get? place) : Linted job trail s [p] [o] t t' where
  outcomes := .cons ho .nil
  written := List.forall_mem_singleton.mpr hwritten
  kept := fun place hplace hnot =>
    (hkept place (List.forall_mem_singleton.mp hnot)).trans (hlog place hplace)
  logged := by
    intro tr htr log hresolve
    have hsame : t'.get? log = t₁.get? log :=
      hkept log fun _ _ => (hclear tr htr).other p hp log hresolve
    refine ⟨[o.event tr.time], .cons ⟨rfl, rfl, rfl, rfl, rfl⟩ .nil, ?_⟩
    rw [Store.bytesAt, hsame, ← Store.bytesAt, hlogged tr htr log hresolve, List.flatMap_singleton]

/-- What is counted of a file can be logged. -/
theorem haveShort_outcomeAt (hr : job.registry.Descends) {p : Path} (hp : p ∈ paths) {o : Outcome}
    (ho : outcomeAt job s p = .ok o) :
    ∀ tr ∈ trail, Value.haveShort (o.event tr.time).metadata = true := by
  intro tr htr
  unfold outcomeAt at ho
  split at ho
  · cases ho
    exact (counts_failed _ _ _ 0).haveShort (Nat.pow_pos (by decide)) tr.time
  · next text htext =>
    exact (lintText_counts hr ho).haveShort ((hclear tr htr).countable p hp text htext) tr.time

/-- **One file in the course of a run** that has left its text as it was. -/
theorem lintFile_spec (hr : job.registry.Descends) {t : Store}
    (h : Store.Grown (IsLog s trail) s t) {p : Path} (hp : p ∈ paths) (hfits : Fits job s p)
    (hkept : ∀ place, s.resolve p = .ok place → t.get? place = s.get? place) :
    ∃ o t', lintFile job trail p t = .ok o t' ∧ Store.Grown (IsLog s trail) s t' ∧
      Linted job trail s [p] [o] t t' := by
  have hread : t.readText p = s.readText p :=
    Store.readText_of_resolve (resolve_run hclear h hp) h.unreadable hkept
  cases hs : s.readText p with
  | error fault =>
    have ho : outcomeAt job s p = .ok (.failed p.toString .unreadable fault.message) := by
      rw [outcomeAt, hs]
    obtain ⟨t₁, hrecord, hgrown, hlog, hlogged⟩ :=
      record_spec hclear h (haveShort_outcomeAt hclear hr hp ho)
    refine ⟨_, t₁, lintFile_unreadable (hread.trans hs) hfits.named hrecord, hgrown,
      linted_of_record hclear hp ho hlog hlogged ?_ fun _ _ => rfl⟩
    rintro fixed place ⟨-, -, -, text, htext, -⟩
    rw [hs] at htext
    cases htext
  | ok text =>
    obtain ⟨o, htext, -⟩ := lintText_ok hr p.toString text
    have ho : outcomeAt job s p = .ok o := by simpa only [outcomeAt, hs] using htext
    obtain ⟨t₁, hrecord, hgrown, hlog, hlogged⟩ :=
      record_spec hclear h (haveShort_outcomeAt hclear hr hp ho)
    obtain ⟨t', hwrite, hgrown', hwritten, hkept'⟩ := writeFixed_spec hclear hgrown hp hfits hs ho
    refine ⟨o, t', ?_, hgrown', linted_of_record hclear hp ho hlog hlogged hwritten hkept'⟩
    rw [lintFile_text (hread.trans hs) htext hrecord, EStateM.map, hwrite]

/-- Files that were linted leave all others as they were. -/
theorem get?_of_linted {t t' : Store} {ps : List Path} {os : List Outcome}
    (h : Linted job trail s ps os t t') {q : Path} (hq : q ∈ paths)
    (hapart : job.fix = true → ∀ p ∈ ps, Apart s p q) {place : Place}
    (hplace : s.resolve q = .ok place) : t'.get? place = t.get? place :=
  h.kept place (not_isLog hclear hq hplace) fun e he _ hrw hsame =>
    hrw.apart (fun hfix => hapart hfix e.1 (List.of_mem_zip he).1) hsame hplace

/-- **Files in a given order**, in the course of a run that has left their texts as they were. -/
theorem lintEach_spec (hr : job.registry.Descends) {t : Store}
    (h : Store.Grown (IsLog s trail) s t) {ps : List Path} (hps : ps ⊆ paths)
    (hfits : ∀ p ∈ ps, Fits job s p) (hapart : job.fix = true → ps.Pairwise (Apart s))
    (hkept : ∀ p ∈ ps, ∀ place, s.resolve p = .ok place → t.get? place = s.get? place) :
    ∃ os t', lintEach job trail ps t = .ok os t' ∧ Store.Grown (IsLog s trail) s t' ∧
      Linted job trail s ps os t t' := by
  induction ps generalizing t with
  | nil => exact ⟨[], t, rfl, h, .nil⟩
  | cons p ps ih =>
    obtain ⟨hp, hps⟩ := List.cons_subset.mp hps
    obtain ⟨hkept, hrest⟩ := List.forall_mem_cons.mp hkept
    obtain ⟨hfit, hfits⟩ := List.forall_mem_cons.mp hfits
    have hfirst : ∀ q ∈ ps, job.fix = true → Apart s p q := fun q hq hfix =>
      (List.pairwise_cons.mp (hapart hfix)).1 q hq
    obtain ⟨o, t₁, hone, hgrown, hlinted⟩ := lintFile_spec hclear hr h hp hfit hkept
    have hkept₁ : ∀ q ∈ ps, ∀ place, s.resolve q = .ok place → t₁.get? place = s.get? place :=
      fun q hq place hplace => (get?_of_linted hclear hlinted (hps hq)
        (fun hfix => List.forall_mem_singleton.mpr (hfirst q hq hfix)) hplace).trans
          (hrest q hq place hplace)
    obtain ⟨os, t', hos, hgrown', hlinted'⟩ := ih hgrown hps hfits
      (fun hfix => (List.pairwise_cons.mp (hapart hfix)).2) hkept₁
    refine ⟨o :: os, t', ?_, hgrown', hlinted.cons hlinted' fun fixed place hrw hplace =>
      ⟨not_isLog hclear hp hplace, fun q hq => hrw.apart (hfirst q hq) hplace⟩⟩
    rw [lintEach_cons hone, EStateM.map, hos]

/-- **A file that is to be written and cannot be stops the run.** The files before it are linted and
its outcome is logged, but it stays as it was, and nothing is said about it or the files after it. -/
theorem lintEach_stops (hr : job.registry.Descends) {t : Store}
    (h : Store.Grown (IsLog s trail) s t) {ps rest : List Path} {p : Path} (hps : ps ++ [p] ⊆ paths)
    (hfits : ∀ q ∈ ps, Fits job s q) (hapart : job.fix = true → (ps ++ [p]).Pairwise (Apart s))
    (hkept : ∀ q ∈ ps ++ [p], ∀ place, s.resolve q = .ok place → t.get? place = s.get? place)
    {o : Outcome} {fixed : List Char} {place : Place} (ho : outcomeAt job s p = .ok o)
    (hrw : Rewrites job s p o fixed) (hplace : s.resolve p = .ok place)
    (hclosed : place ∈ s.unwritable) :
    ∃ os t₁ t', lintEach job trail (ps ++ p :: rest) t = .error (.file ⟨p, .denied⟩) t' ∧
      Linted job trail s ps os t t₁ ∧ record o trail t₁ = .ok () t' ∧
      t'.get? place = s.get? place := by
  obtain ⟨hbefore, hp⟩ := List.append_subset.mp hps
  have hp := hp List.mem_cons_self
  have hafter : job.fix = true → ∀ q ∈ ps, Apart s q p := fun hfix q hq =>
    (List.pairwise_append.mp (hapart hfix)).2.2 q hq p List.mem_cons_self
  obtain ⟨os, t₁, hos, hgrown, hlinted⟩ := lintEach_spec hclear hr h hbefore hfits
    (fun hfix => (List.pairwise_append.mp (hapart hfix)).1)
    fun q hq => hkept q (List.mem_append_left _ hq)
  have hsame : t₁.get? place = s.get? place :=
    (get?_of_linted hclear hlinted hp hafter hplace).trans
      (hkept p (List.mem_append_right _ List.mem_cons_self) place hplace)
  obtain ⟨t', hrecord, hgrown', hlog, -⟩ :=
    record_spec hclear hgrown (haveShort_outcomeAt hclear hr hp ho)
  have hsame' := (hlog place (not_isLog hclear hp hplace)).trans hsame
  refine ⟨os, t₁, t', ?_, hlinted, hrecord, hsame'⟩
  obtain ⟨text, htext, hne⟩ := hrw.changed
  obtain ⟨place', bytes, hplace', hfile⟩ := Store.file_of_readText htext
  rw [hplace] at hplace'
  cases hplace'
  have hread : t₁.readText p = .ok text := by
    rw [Store.readText_of_resolve (resolve_run hclear hgrown hp) hgrown.unreadable, htext]
    intro other hother
    rw [hplace] at hother
    cases hother
    exact hsame
  have hlint : lintText job p.toString text = .ok o := by
    rwa [outcomeAt, htext] at ho
  have hdenied : t'.writeText p fixed = .error ⟨p, .denied⟩ :=
    Store.changeFile_denied ((resolve_run hclear hgrown' hp).trans hplace)
      (Store.not_directory (hsame'.trans hfile)) (hgrown'.unwritable ▸ hclosed) _
  have hstop : lintFile job trail p t₁ = .error (.file ⟨p, .denied⟩) t' := by
    rw [lintFile_text hread hlint hrecord, EStateM.map]
    simp only [writeFixed, hrw.mended, if_neg hne, change, hdenied]
  rw [lintEach_append hos, EStateM.map, lintEach_stopped hstop]

end Run

/-- Paths in the order of their spellings. -/
theorem sorted_paths (paths : List Path) :
    (paths.mergeSort fun p q => !(q.toString < p.toString)).Pairwise
      fun p q => p.toString ≤ q.toString := by
  have hle : ∀ p q : Path, (!(q.toString < p.toString)) = true ↔ p.toString ≤ q.toString := by
    intro p q
    rw [Bool.not_eq_true', decide_eq_false_iff_not, Std.not_lt]
  refine List.Pairwise.imp (fun h => (hle _ _).mp h) (List.pairwise_mergeSort ?_ ?_ paths)
  · intro p q r hpq hqr
    exact (hle p r).mpr (Std.le_trans ((hle p q).mp hpq) ((hle q r).mp hqr))
  · intro p q
    rw [Bool.or_eq_true, hle, hle]
    exact Std.le_total

/-- No log is no file. -/
theorem clear_none (s : Store) (paths : List Path) :
    ∀ t ∈ (none : Option Trail), t.Clear s paths := by
  simp

theorem Trail.Clear.mono {t : Trail} {s : Store} {ps paths : List Path} (h : t.Clear s paths)
    (hps : ps ⊆ paths) : t.Clear s ps :=
  ⟨h.writable, fun p hp => h.other p (hps hp), fun p hp => h.aside p (hps hp),
    fun p hp => h.countable p (hps hp)⟩

theorem Apart.symm {s : Store} {p q : Path} (h : Apart s p q) : Apart s q p :=
  fun place bytes hfile hq hp => h place bytes hfile hp hq

/-- A file that is linted alone has the outcome that it has by itself. -/
theorem lintFiles_alone {job : Job} {trail : Option Trail} {s : Store} {p : Path} {o : Outcome}
    (hr : job.registry.Descends) (hclear : ∀ t ∈ trail, t.Clear s [p]) (hfits : Fits job s p)
    (ho : outcomeAt job s p = .ok o) : ∃ s₁, lintFiles job trail [p] s = .ok [o] s₁ := by
  obtain ⟨os, s₁, hos, -, hlinted⟩ := lintEach_spec hclear hr (Store.grown_refl _ s)
    (List.Subset.refl [p]) (List.forall_mem_singleton.mpr hfits)
    (fun _ => List.pairwise_singleton _ p) fun _ _ _ _ => rfl
  obtain ⟨o', os', ho', hnil, rfl⟩ := List.forall₂_cons_left_iff.mp hlinted.outcomes
  rw [List.forall₂_nil_left_iff.mp hnil] at hos
  rw [ho] at ho'
  cases ho'
  exact ⟨s₁, by rw [lintFiles, List.mergeSort_singleton, hos]⟩

/-! ## A store with one file -/

theorem get?_singleFile_of_ne {name other : String} (h : other ≠ name) (text : List Char) :
    (singleFile name text).get? [other] = none := by
  simp [singleFile, Store.get?, Ne.symm h]

/-- There is no other file. -/
theorem bytes_singleFile {name : String} {text : List Char} {place : Place} {bytes : ByteArray}
    (h : (singleFile name text).get? place = some (.file bytes)) : bytes = Utf8.encode text := by
  by_cases hplace : place = [name]
  · rw [hplace, get?_singleFile] at h
    cases h
    rfl
  · have hne : [name] ≠ place := Ne.symm hplace
    by_cases hroot : place = [] <;> simp [singleFile, Store.get?, hne, hroot] at h

/-- A name that can stand in a directory. -/
def IsName (part : String) : Prop :=
  part ≠ parentStep ∧ (⟨"", [part]⟩ : Path).hasNull = false

instance : DecidablePred IsName := fun part =>
  inferInstanceAs (Decidable (part ≠ parentStep ∧ (⟨"", [part]⟩ : Path).hasNull = false))

theorem resolve_singleFile {part : String} (h : IsName part) (name : String) (text : List Char) :
    (singleFile name text).resolve ⟨"", [part]⟩ = .ok [part] := by
  refine Store.resolve_eq_ok.mpr ⟨h.2, ?_⟩
  simp [Store.walk, Store.origin, Store.step, Store.get?, singleFile, h.1, bind, Except.bind, pure,
    Except.pure]

/-- A log next to a file, and paths of other names. -/
theorem clear_singleFile {name log : String} (hlog : log ≠ name) (hname : IsName log)
    {parts : List String} (hparts : ∀ part ∈ parts, part ≠ log ∧ IsName part) (time : String)
    {text : List Char} (hsize : (unifyLineEnds text).length + 1 < 10 ^ maxDigits) :
    Trail.Clear ⟨⟨"", [log]⟩, time⟩ (singleFile name text)
      (parts.map fun part => (⟨"", [part]⟩ : Path)) := by
  have hresolve := resolve_singleFile hname name text
  refine ⟨⟨[log], hresolve, by simp [get?_singleFile_of_ne hlog text], List.not_mem_nil⟩, ?_, ?_, ?_⟩
  · intro p hp place hplace hp'
    obtain ⟨part, hpart, rfl⟩ := List.mem_map.mp hp
    obtain ⟨hne, hpart⟩ := hparts part hpart
    rw [resolve_singleFile hpart, ← hplace, hresolve] at hp'
    exact hne (List.singleton_inj.mp (Except.ok.inj hp'))
  · rintro p hp place hplace - ⟨before, part, rest, hsplit, hway⟩
    obtain ⟨part', -, rfl⟩ := List.mem_map.mp hp
    cases before with
    | nil =>
      rw [← hplace, hresolve] at hway
      cases hway
    | cons head tail => simp at hsplit
  · intro p _ found hfound
    obtain ⟨place, bytes, hplace, hfile⟩ := Store.file_of_readText hfound
    obtain rfl := bytes_singleFile hfile
    rw [Store.readText_file hplace hfile List.not_mem_nil (Utf8.decode_encode text)] at hfound
    rw [← Except.ok.inj hfound]
    exact hsize

/-! ## All files -/

/-- **A second name of a file** is linted as the first one has left it. -/
theorem lintEach_alias {job : Job} {s : Store} {p q : Path} {place : Place} {bytes : ByteArray}
    {text fixed : List Char} {o o' : Outcome} (hp : s.resolve p = .ok place)
    (hq : s.resolve q = .ok place) (hfile : s.get? place = some (.file bytes))
    (htext : Utf8.decode bytes = .ok text)
    (ho : lintText job p.toString (unifyLineEnds text) = .ok o)
    (hfixed : o.fixedText = some fixed) (hne : fixed ≠ unifyLineEnds text) (hplain : '\r' ∉ fixed)
    (ho' : lintText job q.toString fixed = .ok o') (hsame : o'.fixedText = some fixed)
    (hreadable : place ∉ s.unreadable) (hwritable : place ∉ s.unwritable) :
    ∃ s', lintEach job none [p, q] s = .ok [o, o'] s' := by
  have hdir := Store.not_directory hfile
  have hwrite := Store.changeFile_ok hp hdir hwritable fun _ => Utf8.encode fixed
  have hgrown := Store.grown_put (Store.grown_refl (fun _ => False) s) hdir
    (fun hnone => by rw [hnone] at hfile; cases hfile) (Utf8.encode fixed)
  have hq' := (Store.resolve_grown hgrown fun _ _ _ => id).trans hq
  have hroot := Store.ne_nil_of_get? hdir
  have hread' := Store.readText_file hq' (by rw [Store.get?_put s place _ hroot, if_pos rfl])
    (hgrown.unreadable ▸ hreadable) (Utf8.decode_encode fixed)
  rw [unifyLineEnds_eq hplain] at hread'
  generalize s.put place (.file (Utf8.encode fixed)) = s' at hwrite hread'
  have hfirst : lintFile job none p s = .ok o s' := by
    rw [lintFile_text (Store.readText_file hp hfile hreadable htext) ho rfl, EStateM.map]
    simp only [writeFixed, hfixed, if_neg hne, change, Store.writeText, hwrite]
  have hsecond : lintFile job none q s' = .ok o' s' := by
    rw [lintFile_text hread' ho' rfl, EStateM.map]
    simp only [writeFixed, hsame, if_true, pure, EStateM.pure]
  refine ⟨s', ?_⟩
  rw [lintEach_cons hfirst, EStateM.map, lintEach_cons hsecond]
  rfl

/-- A file by its name and by way of a directory. -/
def aliased (text : List Char) : Store where
  here := []
  entries := [(["a.html"], .file (Utf8.encode text)), (["d"], .directory)]

end MarkupIndent.Lint
