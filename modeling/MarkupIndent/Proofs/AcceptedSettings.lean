import MarkupIndent.Proofs.Layers
import MarkupIndent.Proofs.Repair

/-!
# Settings that are accepted

A unit is read twice: once when settings are merged, and once more by an analysis, which takes
settings from anywhere. The two readings are written apart, and they agree: a value that is no null
is accepted by both or by neither, and its plain form means what the value meant. The number of
tokens is bounded when settings are merged. So once settings are accepted, an analysis finds fault
with them only for a document that is too large.

* `Value.field?_setField`: a field that is set, and the others.
* `ofValue_of_means`, `exists_ofValue_iff`: the two readings of a unit.
* `withUnit`, `ofFile_withUnit`: a file with another unit, and what it says.
* `usable_of_merged`, `Usable.check`: merged settings are usable, and what an analysis makes of
  them.
* `merged_settings_serve`: **what a merge accepts serves every analysis**, with the same meaning.
-/

namespace MarkupIndent

/-- A field that is set, and the others. -/
theorem Value.field?_setField (fields : List (LooseText × Value)) (name other : LooseText)
    (v : Value) : field? (setField fields name v) other =
      if name = other then some v else field? fields other := by
  induction fields with
  | nil => by_cases h : name = other <;> simp [setField, field?, h]
  | cons f rest ih =>
    rw [setField]
    split
    · next hname =>
      obtain rfl : f.1 = name := by simpa using hname
      by_cases h : f.1 = other <;> simp [field?, h]
    · next hname =>
      by_cases h : f.1 = other
      · have hne : name ≠ other := fun heq => hname (by simp [h, heq])
        simp [field?, h, hne]
      · have hskip (fields) : field? (f :: fields) other = field? fields other := by
          simp [field?, h]
        rw [hskip, hskip, ih]

namespace Settings

open Markup Margin Text

/-! ## The two readings of a unit -/

section Units

variable {v a : Value} {mixed : Bool}

theorem ofValue_of_style {style : UnitStyle} (h : IndentUnit.styleOf? v = some style)
    (mixed : Bool) : IndentUnit.ofValue v mixed = .ok ⟨style, mixed⟩ := by
  rw [IndentUnit.ofValue, h]

/-- The plain form of a unit means to an analysis what the unit means to it. -/
theorem ofValue_of_means (h : MeansUnit v a) (mixed : Bool) :
    ∃ unit, IndentUnit.ofValue v mixed = .ok unit ∧ IndentUnit.ofValue a mixed = .ok unit := by
  cases h with
  | @spaces n hn =>
    have hstyle : IndentUnit.styleOf? (.int n) = some (.spaces n.toNat) := if_neg (by omega)
    exact ⟨_, ofValue_of_style hstyle mixed, ofValue_of_style hstyle mixed⟩
  | @tabs s hword =>
    have hstyle : IndentUnit.styleOf? (.text s) = some .tabs := if_pos (isTabWord_iff.mpr hword)
    have hplain : IndentUnit.styleOf? (.text "tab") = some .tabs := by decide +kernel
    exact ⟨_, ofValue_of_style hstyle mixed, ofValue_of_style hplain mixed⟩

/-- An analysis accepts the units that have a plain form, and no others. -/
theorem exists_ofValue_iff :
    (∃ unit, IndentUnit.ofValue v mixed = .ok unit) ↔ ∃ a, MeansUnit v a := by
  constructor
  · rintro ⟨unit, hunit⟩
    unfold IndentUnit.ofValue at hunit
    split at hunit
    · next style hstyle =>
      unfold IndentUnit.styleOf? at hstyle
      split at hstyle
      · split at hstyle <;> cases hstyle
        exact ⟨_, .spaces (by omega)⟩
      · split at hstyle <;> cases hstyle
        next hword => exact ⟨_, .tabs (isTabWord_iff.mp hword)⟩
      · cases hstyle
    · cases hunit
  · rintro ⟨a, ha⟩
    exact (ofValue_of_means ha mixed).imp fun unit hunit => hunit.1

/-- A value that is no null is not refused just if it means something. -/
theorem not_refuses_iff (h : v ≠ .null) (mixed : Bool) :
    ¬ units.Refuses (some v) ↔ ∃ unit, IndentUnit.ofValue v mixed = .ok unit := by
  have hdecides (a : Value) : units.Decides v [some v] a ↔ MeansUnit v a := by
    rw [Field.decides_some]
    exact or_iff_right fun hnull => h hnull.2.1
  rw [exists_ofValue_iff, ← exists_congr hdecides, Field.exists_decides]

/-- What a layer with a value decides means what the value means. -/
theorem ofValue_of_decides {base : Value} {layers : List (Option Value)} (h : v ≠ .null)
    (hdecides : units.Decides base (some v :: layers) a) :
    IndentUnit.ofValue a mixed = IndentUnit.ofValue v mixed := by
  cases hdecides with
  | silent hsilent =>
    rcases hsilent with ⟨⟨⟩⟩ | ⟨-, hnull⟩
    exact absurd (Option.some.inj hnull) h
  | spoken hmeans =>
    obtain ⟨unit, hv, ha⟩ := ofValue_of_means hmeans mixed
    rw [hv, ha]

end Units

/-! ## Another unit in a layer -/

/-- A file with another unit. -/
def withUnit (payload : List (LooseText × Value)) (v : Value) : List (LooseText × Value) :=
  let indent := match Value.field? payload "indent" with
    | some (.table fields) => fields
    | _ => []
  Value.setField payload "indent" (.table (Value.setField indent "unit" v))

section Replaced

variable {payload : List (LooseText × Value)} {l : Layer} {o : Overrides} {s : Settings} {v : Value}
  {mixed : Bool}

theorem said_withUnit (table field : String) : said (withUnit payload v) table field =
    if table = "indent" ∧ field = "unit" then some v else said payload table field := by
  unfold said withUnit
  rw [Value.field?_setField]
  by_cases htable : table = "indent"
  · subst htable
    simp only [if_true, Value.field?_setField, LooseText.whole.injEq, true_and,
      eq_comm (a := "unit")]
    congr 1
    cases Value.field? payload "indent" with
    | none => rfl
    | some w => cases w <;> rfl
  · have hne : LooseText.whole "indent" ≠ table := by
      simpa [eq_comm] using htable
    simp [hne, htable]

theorem ofFile_withUnit :
    Layer.ofFile (withUnit payload v) = { Layer.ofFile payload with unit := some v } := by
  simp [Layer.ofFile, said_withUnit]

theorem misplaced_withUnit {table : String} (h : ¬ Misplaced payload table) :
    ¬ Misplaced (withUnit payload v) table := by
  rintro ⟨w, hw, hne⟩
  rw [withUnit, Value.field?_setField] at hw
  split at hw
  · cases hw
    exact hne _ rfl
  · exact h ⟨w, hw, hne⟩

/-- A layer that is not wrong becomes wrong by its unit only. -/
theorem refused_unit_iff {unit : Option Value} (h : ¬ l.Refused) :
    Layer.Refused { l with unit := unit } ↔ units.Refuses unit := by
  constructor
  · rintro (hf | hf | hf | hf | hf | hf | hf)
    · exact hf
    · exact absurd (.align hf) h
    · exact absurd (.raw hf) h
    · exact absurd (.mixed hf) h
    · exact absurd (.precedence hf) h
    · exact absurd (.ignored hf) h
    · exact absurd (.maxTokens hf) h
  · exact fun hf => .unit hf

/-- A file with another unit is accepted just if an analysis accepts the unit. -/
theorem withUnit_accepted_iff (hs : mergeSettings {} payload o = .ok s) (hv : v ≠ .null) :
    (∃ s', mergeSettings {} (withUnit payload v) o = .ok s') ↔
      ∃ unit, IndentUnit.ofValue v mixed = .ok unit := by
  obtain ⟨⟨hindent, hlimits⟩, hfile, ho⟩ :=
    not_wrong_iff.mp ((exists_mergeSettings precedence_default).mp ⟨s, hs⟩)
  rw [exists_mergeSettings precedence_default, not_wrong_iff, ofFile_withUnit,
    refused_unit_iff hfile, not_refuses_iff hv mixed]
  simp only [misplaced_withUnit hindent, misplaced_withUnit hlimits, ho, not_false_eq_true,
    true_and, and_true]

/-- Overrides with another unit are accepted just if an analysis accepts the unit. -/
theorem override_accepted_iff (hs : mergeSettings {} payload o = .ok s) (hv : v ≠ .null) :
    (∃ s', mergeSettings {} payload { o with indentUnit := v } = .ok s') ↔
      ∃ unit, IndentUnit.ofValue v mixed = .ok unit := by
  obtain ⟨hplaced, hfile, ho⟩ :=
    not_wrong_iff.mp ((exists_mergeSettings precedence_default).mp ⟨s, hs⟩)
  have hlayer : Layer.ofOverrides { o with indentUnit := v } =
      { Layer.ofOverrides o with unit := some v } := rfl
  rw [exists_mergeSettings precedence_default, not_wrong_iff, hlayer, refused_unit_iff ho,
    not_refuses_iff hv mixed]
  simp only [hplaced, hfile, not_false_eq_true, true_and]

end Replaced

/-! ## What an analysis finds wrong -/

/-- Settings that an analysis can go by. -/
structure Usable (s : Settings) : Prop where
  unit : ∃ unit, IndentUnit.ofValue s.indentUnit s.mixedAlignment = .ok unit
  positive : 1 ≤ s.maxTokens
  capped : s.maxTokens ≤ maxTokensCap

section Usable

variable {payload : List (LooseText × Value)} {o : Overrides} {s : Settings}

/-- Merged settings are usable: each of them is the default or was checked. -/
theorem usable_of_merged (h : mergeSettings {} payload o = .ok s) : Usable s := by
  obtain ⟨-, hs⟩ := (mergeSettings_eq_ok precedence_default).mp h
  have hmax : 1 ≤ s.maxTokens ∧ s.maxTokens ≤ maxTokensCap := by
    rcases hs.maxTokens.origin with hbase | ⟨v, hlow, hhigh⟩
    · rw [hbase]
      decide
    · exact ⟨hlow, hhigh⟩
  refine ⟨?_, hmax.1, hmax.2⟩
  rcases hs.unit.origin with hbase | ⟨v, hmeans⟩
  · rw [hbase]
    exact exists_ofValue_iff.mpr ⟨_, .spaces (by decide)⟩
  · obtain ⟨unit, -, hunit⟩ := ofValue_of_means hmeans s.mixedAlignment
    exact ⟨unit, hunit⟩

/-- Usable settings are at fault for large documents only. -/
theorem Usable.check {text : List Char} {d : Document} (h : Usable s)
    (hd : Document.read text = .ok d) : ∃ result, check d s .default = .ok result ∧
      (result.settingsFault = true ↔ s.maxTokens < d.tokens.size) := by
  obtain ⟨unit, hunit⟩ := h.unit
  by_cases hlimit : s.maxTokens < d.tokens.size
  · refine ⟨settingsReport (.tooManyTokens d.tokens.size s.maxTokens), ?_, iff_of_true rfl hlimit⟩
    simp only [Margin.check, Layout.ofSettings, hunit, bind, Except.bind, if_pos hlimit]
    rfl
  · obtain ⟨l, hl, -⟩ := ofSettings_ok hd descends_default hunit (by omega)
    obtain ⟨records, hrecords, -⟩ := records_spec hd descends_default hl
    exact ⟨_, check_of_records hl hrecords, iff_of_false Bool.false_ne_true hlimit⟩

end Usable

/-- **What a merge accepts serves every analysis.** A value that is no null is accepted as the unit
of a file, and as the unit of a command, just if an analysis accepts it, and the merged unit then
means what the value means. Merged settings bound the tokens of a document, and an analysis finds
fault with them just if a document has more. -/
theorem merged_settings_serve :
    (∀ (payload : List (LooseText × Value)) (o : Overrides) (s : Settings) (v : Value)
        (mixed : Bool),
      mergeSettings {} payload o = .ok s → v ≠ .null →
        ((∃ s', mergeSettings {} (withUnit payload v) o = .ok s') ↔
          ∃ unit, IndentUnit.ofValue v mixed = .ok unit) ∧
        ((∃ s', mergeSettings {} payload { o with indentUnit := v } = .ok s') ↔
          ∃ unit, IndentUnit.ofValue v mixed = .ok unit) ∧
        (∀ s', o.indentUnit = .null → mergeSettings {} (withUnit payload v) o = .ok s' →
          IndentUnit.ofValue s'.indentUnit mixed = IndentUnit.ofValue v mixed) ∧
        ∀ s', mergeSettings {} payload { o with indentUnit := v } = .ok s' →
          IndentUnit.ofValue s'.indentUnit mixed = IndentUnit.ofValue v mixed) ∧
    ∀ (payload : List (LooseText × Value)) (o : Overrides) (s : Settings),
      mergeSettings {} payload o = .ok s →
        1 ≤ s.maxTokens ∧ s.maxTokens ≤ maxTokensCap ∧
          ∀ (text : List Char) (d : Document), Document.read text = .ok d →
            ∃ result, check d s .default = .ok result ∧
              (result.settingsFault = true ↔ s.maxTokens < d.tokens.size) := by
  constructor
  · intro payload o s v mixed hs hv
    refine ⟨withUnit_accepted_iff hs hv, override_accepted_iff hs hv, fun s' ho hs' => ?_,
      fun s' hs' => ?_⟩
    · have hunit := ((mergeSettings_eq_ok precedence_default).mp hs').2.unit
      rw [List.map_cons, List.map_cons, ofFile_withUnit] at hunit
      cases hunit with
      | silent _ hunit => exact ofValue_of_decides hv hunit
      | spoken hmeans =>
        rw [ho] at hmeans
        exact absurd hmeans (units.means_null rfl _)
    · exact ofValue_of_decides hv ((mergeSettings_eq_ok precedence_default).mp hs').2.unit
  · intro payload o s hs
    have h := usable_of_merged hs
    exact ⟨h.positive, h.capped, fun text d hd => h.check hd⟩

/-- The word for tabs with a capital and a blank, and a document of more than one token. -/
theorem merged_settings_serve_tab :
    (∃ s, mergeSettings {} (withUnit [] (.text " Tab")) {} = .ok s ∧
      IndentUnit.ofValue s.indentUnit false = .ok ⟨.tabs, false⟩) ∧
    ∃ (d : Document) (s : Settings) (result : CheckResult),
      Document.read "<p>x</p>".toList = .ok d ∧
      mergeSettings {} [("limits", .table [("max_tokens", .int 1)])] {} = .ok s ∧
      check d s .default = .ok result ∧ result.settingsFault = true := by
  constructor
  · have hunit : IndentUnit.ofValue (.text " Tab") false = .ok ⟨.tabs, false⟩ :=
      ofValue_of_style (by decide +kernel) false
    obtain ⟨haccepted, -, hmeans, -⟩ :=
      merged_settings_serve.1 [] {} {} (.text " Tab") false rfl nofun
    obtain ⟨s, hs⟩ := haccepted.mpr ⟨_, hunit⟩
    exact ⟨s, hs, (hmeans s rfl hs).trans hunit⟩
  · have hmany : (Document.read "<p>x</p>".toList).toOption.any (1 < ·.tokens.size) = true := by
      decide +kernel
    cases hd : Document.read "<p>x</p>".toList with
    | error e =>
      rw [hd] at hmany
      cases hmany
    | ok d =>
      rw [hd] at hmany
      have hmerged : mergeSettings {} [("limits", .table [("max_tokens", .int 1)])] {} =
          .ok { maxTokens := 1 } := rfl
      obtain ⟨result, hcheck, hfault⟩ := (merged_settings_serve.2 _ _ _ hmerged).2.2 _ d hd
      have hsize : 1 < d.tokens.size := by simpa [Except.toOption] using hmany
      exact ⟨d, _, result, rfl, hmerged, hcheck, hfault.mpr (Int.ofNat_lt.mpr hsize)⟩

end Settings

end MarkupIndent
