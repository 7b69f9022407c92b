import MarkupIndent.Settings.Merge
import MarkupIndent.Markup.Reading
import MarkupIndent.Proofs.TabWord

/-!
# Layers of settings

The settings in force are a base with two layers over it: the tables of a file, and the overrides of
a command. A layer says something for a field or it does not, and what it says has a meaning or it
has none. For every field the topmost layer that says something decides; and a merge fails exactly
if some layer says what has no meaning, whether or not another layer hides it.

* `Field`: what may be said for a setting, and whether a null says anything.
* `Field.Silent`, `Field.Refuses`, `Field.Decides`: a layer that says nothing, one that is wrong,
  and what the layers come to.
* `Field.Decides.origin`: they come to what the base had or what some value means.
* `unitOr_eq_ok`, `flagOr_eq_ok`, `positiveOr_eq_ok`, `stringsOr_eq_ok`, `precedenceOr_eq_ok`: what
  reading one field over the layer below gives.
* `Layer`, `Layered`: what a layer says for every field, and settings with layers over them.
* `overlay_eq_ok`, `override_eq_ok`: the two steps of a merge.
* `mergeSettings_layered`: **the merge decides every field by its topmost layer**, fails exactly on
  a wrong layer, and reads nothing else.
-/

namespace MarkupIndent.Settings

open Text Markup

/-! ## Fields -/

/-- What may be said for a setting. A value has one meaning at most, and a null has none where it
says nothing. -/
structure Field (α : Type) where
  /-- A null says nothing. -/
  nullable : Bool
  /-- A value has a meaning. -/
  Means : Value → α → Prop
  means_unique : ∀ v a b, Means v a → Means v b → a = b
  means_null : nullable = true → ∀ a, ¬ Means .null a

namespace Field

variable {α : Type} (f : Field α)

/-- Nothing is said. -/
def Silent (layer : Option Value) : Prop :=
  layer = none ∨ f.nullable = true ∧ layer = some .null

/-- What is said has no meaning. -/
def Refuses (layer : Option Value) : Prop :=
  ¬ f.Silent layer ∧ ∀ v a, layer = some v → ¬ f.Means v a

/-- What some layers come to, the topmost first: the first one that says something decides. -/
inductive Decides (base : α) : List (Option Value) → α → Prop
  | base : Decides base [] base
  | silent {layer layers a} : f.Silent layer → Decides base layers a →
      Decides base (layer :: layers) a
  | spoken {v layers a} : f.Means v a → Decides base (some v :: layers) a

variable {f}
variable {base a b : α} {layer upper lower : Option Value} {layers : List (Option Value)}

theorem silent_none : f.Silent none :=
  .inl rfl

theorem decides_one : f.Decides base [layer] a ↔
    f.Silent layer ∧ a = base ∨ ∃ v, layer = some v ∧ f.Means v a := by
  constructor
  · rintro (_ | ⟨hsilent, ⟨⟩⟩ | hmeans)
    · exact .inl ⟨hsilent, rfl⟩
    · exact .inr ⟨_, rfl, hmeans⟩
  · rintro (⟨hsilent, rfl⟩ | ⟨v, rfl, hmeans⟩)
    · exact .silent hsilent .base
    · exact .spoken hmeans

theorem decides_some {v : Value} : f.Decides base [some v] a ↔
    f.nullable = true ∧ v = .null ∧ a = base ∨ f.Means v a := by
  simp [decides_one, Silent, and_assoc]

theorem decides_none : f.Decides base [none] a ↔ a = base := by
  simp [decides_one, silent_none]

/-- What layers come to is what the base had or what some value means. -/
theorem Decides.origin (h : f.Decides base layers a) : a = base ∨ ∃ v, f.Means v a := by
  induction h with
  | base => exact .inl rfl
  | silent _ _ ih => exact ih
  | spoken hmeans => exact .inr ⟨_, hmeans⟩

/-- A layer comes to something unless it is wrong. -/
theorem exists_decides : (∃ a, f.Decides base [layer] a) ↔ ¬ f.Refuses layer := by
  simp only [decides_one, Refuses, not_and_or, not_not, not_forall]
  constructor
  · rintro ⟨a, ⟨hsilent, -⟩ | ⟨v, hv, hmeans⟩⟩
    · exact .inl hsilent
    · exact .inr ⟨v, a, hv, hmeans⟩
  · rintro (hsilent | ⟨v, a, hv, hmeans⟩)
    · exact ⟨base, .inl ⟨hsilent, rfl⟩⟩
    · exact ⟨a, .inr ⟨v, hv, hmeans⟩⟩

theorem decides_unique (h : f.Decides base [layer] a) (h' : f.Decides base [layer] b) : a = b := by
  cases layer with
  | none => rw [decides_none.mp h, decides_none.mp h']
  | some v =>
    rcases decides_some.mp h with ⟨hnullable, rfl, rfl⟩ | hmeans
    · rcases decides_some.mp h' with ⟨-, -, rfl⟩ | hmeans'
      · rfl
      · exact absurd hmeans' (f.means_null hnullable b)
    · rcases decides_some.mp h' with ⟨hnullable, rfl, -⟩ | hmeans'
      · exact absurd hmeans (f.means_null hnullable a)
      · exact f.means_unique v a b hmeans hmeans'

/-- A layer over what the layer below comes to. -/
theorem decides_two (h : f.Decides base [lower] b) :
    f.Decides base [upper, lower] a ↔ f.Decides b [upper] a := by
  constructor
  · rintro (_ | ⟨hsilent, hlower⟩ | hmeans)
    · rw [decides_unique hlower h]
      exact .silent hsilent .base
    · exact .spoken hmeans
  · intro hupper
    rcases decides_one.mp hupper with ⟨hsilent, rfl⟩ | ⟨v, rfl, hmeans⟩
    · exact .silent hsilent h
    · exact .spoken hmeans

/-- Where a null says nothing, a field that is missing is as good as a null. -/
theorem decides_getD (h : f.nullable = true) :
    f.Decides base [some (layer.getD .null)] a ↔ f.Decides base [layer] a := by
  cases layer with
  | some v => rfl
  | none => simp [decides_one, Silent, h, f.means_null h]

end Field

/-- A unit is a positive number, which stands for itself, or names tabs. -/
inductive MeansUnit : Value → Value → Prop
  | spaces {n : Int} : 1 ≤ n → MeansUnit (.int n) (.int n)
  | tabs {s : String} : IsTabWord s.toList → MeansUnit (.text (.whole s)) (.text "tab")

/-- A flag is true or false. -/
inductive MeansFlag : Value → Bool → Prop
  | flag (b : Bool) : MeansFlag (.bool b) b

/-- A count is a positive number up to a limit. -/
inductive MeansCount (cap : Int) : Value → Int → Prop
  | count {n : Int} : 1 ≤ n → n ≤ cap → MeansCount cap (.int n) n

/-- A precedence is one of two words. -/
inductive MeansPrecedence : Value → String → Prop
  | word {s : String} : s = expressionPrecedence ∨ s = attributePrecedence →
      MeansPrecedence (.text (.whole s)) s

/-- Labels are a list of texts. -/
def MeansLabels (v : Value) (texts : List LooseText) : Prop :=
  v = .list (texts.map .text)

def units : Field Value where
  nullable := true
  Means := MeansUnit
  means_unique _ _ _ h h' := by cases h <;> cases h' <;> rfl
  means_null _ _ h := nomatch h

def flags : Field Bool where
  nullable := true
  Means := MeansFlag
  means_unique _ _ _ h h' := by cases h; cases h'; rfl
  means_null _ _ h := nomatch h

def counts (cap : Int) : Field Int where
  nullable := true
  Means := MeansCount cap
  means_unique _ _ _ h h' := by cases h; cases h'; rfl
  means_null _ _ h := nomatch h

def precedences : Field String where
  nullable := false
  Means := MeansPrecedence
  means_unique _ _ _ h h' := by cases h; cases h'; rfl
  means_null := nofun

def labels : Field (List LooseText) where
  nullable := false
  Means := MeansLabels
  means_unique _ _ _ h h' :=
    (List.map_inj_right fun _ _ => Value.text.inj).mp (Value.list.inj (h.symm.trans h'))
  means_null := nofun

/-! ## One field over the layer below -/

section Reading

variable {name : String} {v : Value} {layer : Option Value}

theorem unitOr_eq_ok {below a : Value} :
    unitOr below name v = .ok a ↔ units.Decides below [some v] a := by
  rw [Field.decides_some]
  constructor
  · intro h
    unfold unitOr at h
    split at h
    · cases h
      exact .inl ⟨rfl, rfl, rfl⟩
    · split at h <;> cases h
      exact .inr (.spaces (by omega))
    · split at h <;> cases h
      next hword => exact .inr (.tabs (lower_trim_eq_tab_iff.mp hword))
    · cases h
  · rintro (⟨-, rfl, rfl⟩ | hmeans)
    · rfl
    · cases hmeans with
      | spaces hn => exact if_neg (by omega)
      | tabs hword => exact if_pos (lower_trim_eq_tab_iff.mpr hword)

theorem flagOr_eq_ok {below a : Bool} :
    flagOr below name v = .ok a ↔ flags.Decides below [some v] a := by
  rw [Field.decides_some]
  constructor
  · intro h
    unfold flagOr at h
    split at h <;> cases h
    · exact .inl ⟨rfl, rfl, rfl⟩
    · exact .inr (.flag a)
  · rintro (⟨-, rfl, rfl⟩ | ⟨⟨⟩⟩) <;> rfl

theorem positiveOr_eq_ok {below a cap : Int} :
    positiveOr below name cap v = .ok a ↔ (counts cap).Decides below [some v] a := by
  rw [Field.decides_some]
  constructor
  · intro h
    unfold positiveOr at h
    split at h
    · cases h
      exact .inl ⟨rfl, rfl, rfl⟩
    · split_ifs at h with hlow hhigh
      cases h
      exact .inr (.count (by omega) (by omega))
    · cases h
  · rintro (⟨-, rfl, rfl⟩ | hmeans)
    · rfl
    · cases hmeans with
      | count hlow hhigh => rw [positiveOr, if_neg (by omega), if_neg (by omega)]

theorem map_eq_ok {ε α β : Type} {x : Except ε α} {f : α → β} {b : β} :
    x.map f = .ok b ↔ ∃ a, x = .ok a ∧ f a = b := by
  cases x <;> simp [Except.map]

theorem strings_eq_ok {items : List Value} {texts : List LooseText} :
    strings name items = .ok texts ↔ items = texts.map .text := by
  induction items generalizing texts with
  | nil => cases texts <;> simp [strings]
  | cons item rest ih =>
    cases item with
    | text t =>
      cases texts with
      | nil => simp [strings, map_eq_ok]
      | cons t' texts =>
        rw [strings, map_eq_ok, List.map_cons, List.cons.injEq, Value.text.injEq]
        constructor
        · rintro ⟨_, hrest, ⟨⟩⟩
          exact ⟨rfl, ih.mp hrest⟩
        · rintro ⟨rfl, hrest⟩
          exact ⟨texts, ih.mpr hrest, rfl⟩
    | _ => cases texts <;> simp [strings]

theorem stringsOr_eq_ok {below a : List LooseText} :
    stringsOr below name layer = .ok a ↔ labels.Decides below [layer] a := by
  cases layer with
  | none => simp [stringsOr, Field.decides_none, eq_comm]
  | some v =>
    rw [Field.decides_some]
    constructor
    · intro h
      cases v with
      | list items =>
        rw [strings_eq_ok.mp h]
        exact .inr rfl
      | _ => cases h
    · rintro (⟨⟨⟩, -⟩ | hmeans)
      rw [show v = _ from hmeans]
      exact strings_eq_ok.mpr rfl

theorem precedenceOr_some {below a : String} :
    precedenceOr below (some v) = .ok a ↔ MeansPrecedence v a := by
  constructor
  · intro h
    unfold precedenceOr at h
    split at h
    · next s hs =>
      split at h <;> cases h
      next hchoice =>
        obtain rfl : v = .text a := hs
        exact .word hchoice
    · cases h
  · rintro ⟨hchoice⟩
    exact if_pos hchoice

/-- A precedence that is missing is checked too, and is then that of the layer below. -/
theorem precedenceOr_eq_ok {below a : String} (h : MeansPrecedence (.text below) below) :
    precedenceOr below layer = .ok a ↔ precedences.Decides below [layer] a := by
  cases layer with
  | none =>
    have hbelow : precedenceOr below (some (.text below)) = .ok below := precedenceOr_some.mpr h
    have hnone : precedenceOr below none = precedenceOr below (some (.text below)) := rfl
    simp [hnone, hbelow, Field.decides_none, eq_comm]
  | some v => simp [precedenceOr_some, Field.decides_some, precedences]

end Reading

/-! ## Layers -/

/-- What a layer says for every field. -/
structure Layer where
  unit : Option Value
  align : Option Value
  raw : Option Value
  mixed : Option Value
  precedence : Option Value
  ignored : Option Value
  maxTokens : Option Value

/-- A field of a layer is wrong. -/
inductive Layer.Refused (l : Layer) : Prop
  | unit : units.Refuses l.unit → l.Refused
  | align : flags.Refuses l.align → l.Refused
  | raw : flags.Refuses l.raw → l.Refused
  | mixed : flags.Refuses l.mixed → l.Refused
  | precedence : precedences.Refuses l.precedence → l.Refused
  | ignored : labels.Refuses l.ignored → l.Refused
  | maxTokens : (counts maxTokensCap).Refuses l.maxTokens → l.Refused

/-- The settings `s` are `base` with some layers over it, the topmost first. -/
structure Layered (base : Settings) (layers : List Layer) (s : Settings) : Prop where
  unit : units.Decides base.indentUnit (layers.map Layer.unit) s.indentUnit
  align : flags.Decides base.alignAttributes (layers.map Layer.align) s.alignAttributes
  raw : flags.Decides base.indentRaw (layers.map Layer.raw) s.indentRaw
  mixed : flags.Decides base.mixedAlignment (layers.map Layer.mixed) s.mixedAlignment
  precedence : precedences.Decides base.precedence (layers.map Layer.precedence) s.precedence
  ignored : labels.Decides base.ignoredNodes (layers.map Layer.ignored) s.ignoredNodes
  maxTokens : (counts maxTokensCap).Decides base.maxTokens (layers.map Layer.maxTokens) s.maxTokens

section Layers

variable {base s t : Settings} {l upper lower : Layer}

/-- A layer can be put over any settings unless it is wrong. -/
theorem exists_layered : (∃ s, Layered base [l] s) ↔ ¬ l.Refused := by
  constructor
  · rintro ⟨s, hs⟩ hrefused
    cases hrefused with
    | unit h => exact Field.exists_decides.mp ⟨_, hs.unit⟩ h
    | align h => exact Field.exists_decides.mp ⟨_, hs.align⟩ h
    | raw h => exact Field.exists_decides.mp ⟨_, hs.raw⟩ h
    | mixed h => exact Field.exists_decides.mp ⟨_, hs.mixed⟩ h
    | precedence h => exact Field.exists_decides.mp ⟨_, hs.precedence⟩ h
    | ignored h => exact Field.exists_decides.mp ⟨_, hs.ignored⟩ h
    | maxTokens h => exact Field.exists_decides.mp ⟨_, hs.maxTokens⟩ h
  · intro h
    obtain ⟨unit, hunit⟩ := Field.exists_decides.mpr fun hf => h (.unit hf)
    obtain ⟨align, halign⟩ := Field.exists_decides.mpr fun hf => h (.align hf)
    obtain ⟨raw, hraw⟩ := Field.exists_decides.mpr fun hf => h (.raw hf)
    obtain ⟨mixed, hmixed⟩ := Field.exists_decides.mpr fun hf => h (.mixed hf)
    obtain ⟨precedence, hprecedence⟩ := Field.exists_decides.mpr fun hf => h (.precedence hf)
    obtain ⟨ignored, hignored⟩ := Field.exists_decides.mpr fun hf => h (.ignored hf)
    obtain ⟨maxTokens, hmaxTokens⟩ := Field.exists_decides.mpr fun hf => h (.maxTokens hf)
    exact ⟨⟨unit, align, raw, mixed, precedence, ignored, maxTokens⟩,
      hunit, halign, hraw, hmixed, hprecedence, hignored, hmaxTokens⟩

/-- A layer over settings with the layer below. -/
theorem layered_two (h : Layered base [lower] t) :
    Layered base [upper, lower] s ↔ Layered t [upper] s where
  mp hs := {
    unit := (Field.decides_two h.unit).mp hs.unit
    align := (Field.decides_two h.align).mp hs.align
    raw := (Field.decides_two h.raw).mp hs.raw
    mixed := (Field.decides_two h.mixed).mp hs.mixed
    precedence := (Field.decides_two h.precedence).mp hs.precedence
    ignored := (Field.decides_two h.ignored).mp hs.ignored
    maxTokens := (Field.decides_two h.maxTokens).mp hs.maxTokens }
  mpr hs := {
    unit := (Field.decides_two h.unit).mpr hs.unit
    align := (Field.decides_two h.align).mpr hs.align
    raw := (Field.decides_two h.raw).mpr hs.raw
    mixed := (Field.decides_two h.mixed).mpr hs.mixed
    precedence := (Field.decides_two h.precedence).mpr hs.precedence
    ignored := (Field.decides_two h.ignored).mpr hs.ignored
    maxTokens := (Field.decides_two h.maxTokens).mpr hs.maxTokens }

end Layers

/-! ## What the two layers are -/

/-- A table of the file is there and is no table. -/
def Misplaced (payload : List (LooseText × Value)) (table : String) : Prop :=
  ∃ v, Value.field? payload table = some v ∧ ∀ fields, v ≠ .table fields

/-- What a file says for a field of a table. -/
def said (payload : List (LooseText × Value)) (table field : String) : Option Value :=
  match Value.field? payload table with
  | some (.table fields) => Value.field? fields field
  | _ => none

/-- What a file says. -/
def Layer.ofFile (payload : List (LooseText × Value)) : Layer where
  unit := said payload "indent" "unit"
  align := said payload "indent" "align_attributes_vertically"
  raw := said payload "indent" "indent_script_and_style"
  mixed := said payload "indent" "mixed_alignment"
  precedence := said payload "indent" "attribute_expression_precedence"
  ignored := said payload "indent" "ignored_nodes"
  maxTokens := said payload "limits" "max_tokens"

/-- What overrides say. -/
def Layer.ofOverrides (o : Overrides) : Layer where
  unit := some o.indentUnit
  align := o.alignAttributes.map .bool
  raw := o.indentRaw.map .bool
  mixed := none
  precedence := none
  ignored := none
  maxTokens := some o.maxTokens

section Steps

variable {payload payload' : List (LooseText × Value)} {table : String} {base s : Settings}
  {o : Overrides}

theorem sectionFields_of_misplaced (h : Misplaced payload table) :
    sectionFields payload table = .error (.sectionField table) := by
  obtain ⟨v, hv, hne⟩ := h
  rw [sectionFields, hv]
  cases v with
  | table fields => exact absurd rfl (hne fields)
  | _ => rfl

theorem exists_sectionFields (h : ¬ Misplaced payload table) : ∃ fields,
    sectionFields payload table = .ok fields ∧
      ∀ field : String, Value.field? fields field = said payload table field := by
  unfold sectionFields said
  cases hv : Value.field? payload table with
  | none => exact ⟨[], rfl, fun _ => rfl⟩
  | some v =>
    cases v with
    | table fields => exact ⟨fields, rfl, fun _ => rfl⟩
    | _ => exact absurd ⟨_, hv, nofun⟩ h

/-- The tables of a file are read, unless one is misplaced. -/
theorem overlay_eq_ok (hbase : MeansPrecedence (.text base.precedence) base.precedence) :
    overlay base payload = .ok s ↔
      ¬ Misplaced payload "indent" ∧ ¬ Misplaced payload "limits" ∧
        Layered base [.ofFile payload] s := by
  by_cases hi : Misplaced payload "indent"
  · simp [overlay, sectionFields_of_misplaced hi, bind, Except.bind, hi]
  obtain ⟨indent, hindent, hsaid⟩ := exists_sectionFields hi
  by_cases hl : Misplaced payload "limits"
  · simp [overlay, hindent, sectionFields_of_misplaced hl, bind, Except.bind, hl]
  obtain ⟨limits, hlimits, hsaid'⟩ := exists_sectionFields hl
  simp only [overlay, hindent, hlimits, fieldValue, hsaid, hsaid', bind_eq_ok, Except.ok.injEq,
    exists_eq_left', precedenceOr_eq_ok hbase, stringsOr_eq_ok, unitOr_eq_ok, flagOr_eq_ok,
    positiveOr_eq_ok, Field.decides_getD (f := units) rfl, Field.decides_getD (f := flags) rfl,
    Field.decides_getD (f := counts maxTokensCap) rfl, hi, hl, not_false_eq_true, true_and]
  constructor
  · rintro ⟨_, hprecedence, _, hignored, _, hunit, _, halign, _, hraw, _, hmixed, _, hmaxTokens,
      rfl⟩
    exact ⟨hunit, halign, hraw, hmixed, hprecedence, hignored, hmaxTokens⟩
  · rintro ⟨hunit, halign, hraw, hmixed, hprecedence, hignored, hmaxTokens⟩
    exact ⟨_, hprecedence, _, hignored, _, hunit, _, halign, _, hraw, _, hmixed, _, hmaxTokens, rfl⟩

theorem decides_flag {b : Option Bool} {below a : Bool} :
    flags.Decides below [b.map .bool] a ↔ a = b.getD below := by
  cases b with
  | none => exact Field.decides_none
  | some b =>
    rw [Option.map_some, Field.decides_some]
    constructor
    · rintro (⟨-, ⟨⟩, -⟩ | ⟨⟨⟩⟩)
      rfl
    · rintro rfl
      exact .inr (.flag _)

theorem override_eq_ok : override base o = .ok s ↔ Layered base [.ofOverrides o] s := by
  simp only [override, bind_eq_ok, unitOr_eq_ok, positiveOr_eq_ok, Except.ok.injEq]
  constructor
  · rintro ⟨_, hunit, _, hmaxTokens, rfl⟩
    exact ⟨hunit, decides_flag.mpr rfl, decides_flag.mpr rfl, Field.decides_none.mpr rfl,
      Field.decides_none.mpr rfl, Field.decides_none.mpr rfl, hmaxTokens⟩
  · rintro ⟨hunit, halign, hraw, hmixed, hprecedence, hignored, hmaxTokens⟩
    refine ⟨_, hunit, _, hmaxTokens, ?_⟩
    rw [← decides_flag.mp halign, ← decides_flag.mp hraw, ← Field.decides_none.mp hmixed,
      ← Field.decides_none.mp hprecedence, ← Field.decides_none.mp hignored]

/-- On a command line no flag is wrong, and the other fields cannot be given. -/
theorem refused_ofOverrides : (Layer.ofOverrides o).Refused ↔
    units.Refuses (some o.indentUnit) ∨ (counts maxTokensCap).Refuses (some o.maxTokens) := by
  have hnone {α : Type} {f : Field α} : ¬ f.Refuses none := fun h => h.1 Field.silent_none
  have hflag (b : Option Bool) : ¬ flags.Refuses (b.map .bool) :=
    Field.exists_decides.mp ⟨b.getD false, decides_flag.mpr rfl⟩
  constructor
  · rintro (h | h | h | h | h | h | h)
    · exact .inl h
    · exact absurd h (hflag _)
    · exact absurd h (hflag _)
    · exact absurd h hnone
    · exact absurd h hnone
    · exact absurd h hnone
    · exact .inr h
  · rintro (h | h)
    · exact .unit h
    · exact .maxTokens h

end Steps

/-! ## The merge -/

/-- Something is wrong with the file or with the overrides. -/
inductive Wrong (payload : List (LooseText × Value)) (o : Overrides) : Prop
  | table {table : String} : table ∈ ["indent", "limits"] → Misplaced payload table →
      Wrong payload o
  | file : (Layer.ofFile payload).Refused → Wrong payload o
  | unitOverride : units.Refuses (some o.indentUnit) → Wrong payload o
  | maxTokensOverride : (counts maxTokensCap).Refuses (some o.maxTokens) → Wrong payload o

/-- Two files have the same tables out of place and say the same for every field. -/
structure SameFields (payload payload' : List (LooseText × Value)) : Prop where
  misplaced : ∀ table ∈ ["indent", "limits"], Misplaced payload table ↔ Misplaced payload' table
  layer : Layer.ofFile payload = Layer.ofFile payload'

section Merge

variable {payload payload' : List (LooseText × Value)} {base s : Settings} {o : Overrides}

theorem not_wrong_iff : ¬ Wrong payload o ↔
    (¬ Misplaced payload "indent" ∧ ¬ Misplaced payload "limits") ∧
      ¬ (Layer.ofFile payload).Refused ∧ ¬ (Layer.ofOverrides o).Refused := by
  constructor
  · intro h
    refine ⟨⟨fun hm => h (.table (by simp) hm), fun hm => h (.table (by simp) hm)⟩,
      fun hf => h (.file hf), fun ho => ?_⟩
    rcases refused_ofOverrides.mp ho with ho | ho
    · exact h (.unitOverride ho)
    · exact h (.maxTokensOverride ho)
  · rintro ⟨⟨hindent, hlimits⟩, hfile, ho⟩ (⟨hname, hm⟩ | hf | hu | ht)
    · rcases List.mem_cons.mp hname with rfl | hname
      · exact hindent hm
      · rw [List.mem_singleton.mp hname] at hm
        exact hlimits hm
    · exact hfile hf
    · exact ho (refused_ofOverrides.mpr (.inl hu))
    · exact ho (refused_ofOverrides.mpr (.inr ht))

/-- Both steps of a merge have to succeed, also where the second hides what the first one reads. -/
theorem mergeSettings_eq_ok (hbase : MeansPrecedence (.text base.precedence) base.precedence) :
    mergeSettings base payload o = .ok s ↔
      ¬ Wrong payload o ∧ Layered base [.ofOverrides o, .ofFile payload] s := by
  simp only [mergeSettings, bind_eq_ok, overlay_eq_ok hbase, override_eq_ok]
  constructor
  · rintro ⟨t, ⟨hindent, hlimits, ht⟩, hs⟩
    exact ⟨not_wrong_iff.mpr ⟨⟨hindent, hlimits⟩, exists_layered.mp ⟨t, ht⟩,
      exists_layered.mp ⟨s, hs⟩⟩, (layered_two ht).mpr hs⟩
  · rintro ⟨hright, hs⟩
    obtain ⟨⟨hindent, hlimits⟩, hfile, -⟩ := not_wrong_iff.mp hright
    obtain ⟨t, ht⟩ := exists_layered.mpr hfile
    exact ⟨t, ⟨hindent, hlimits, ht⟩, (layered_two ht).mp hs⟩

theorem exists_mergeSettings (hbase : MeansPrecedence (.text base.precedence) base.precedence) :
    (∃ s, mergeSettings base payload o = .ok s) ↔ ¬ Wrong payload o := by
  simp only [mergeSettings_eq_ok hbase, exists_and_left, and_iff_left_iff_imp]
  intro hright
  obtain ⟨-, hfile, ho⟩ := not_wrong_iff.mp hright
  obtain ⟨t, ht⟩ := exists_layered.mpr hfile
  obtain ⟨s, hs⟩ := exists_layered.mpr ho
  exact ⟨s, (layered_two ht).mpr hs⟩

/-- Nothing but the fields is read. -/
theorem overlay_congr (h : SameFields payload payload') :
    overlay base payload' = overlay base payload := by
  obtain ⟨hmisplaced, hlayer⟩ := h
  have hi := hmisplaced "indent" (by simp)
  have hl := hmisplaced "limits" (by simp)
  by_cases hindent : Misplaced payload "indent"
  · rw [overlay, overlay, sectionFields_of_misplaced hindent,
      sectionFields_of_misplaced (hi.mp hindent)]
    rfl
  obtain ⟨indent, heq, hsaid⟩ := exists_sectionFields hindent
  obtain ⟨indent', heq', hsaid'⟩ := exists_sectionFields (mt hi.mpr hindent)
  by_cases hlimits : Misplaced payload "limits"
  · rw [overlay, overlay, heq, heq', sectionFields_of_misplaced hlimits,
      sectionFields_of_misplaced (hl.mp hlimits)]
    rfl
  obtain ⟨limits, hleq, hlsaid⟩ := exists_sectionFields hlimits
  obtain ⟨limits', hleq', hlsaid'⟩ := exists_sectionFields (mt hl.mpr hlimits)
  simp only [Layer.ofFile, Layer.mk.injEq] at hlayer
  simp only [overlay, heq, heq', hleq, hleq', fieldValue, hsaid, hsaid', hlsaid, hlsaid', hlayer,
    bind, Except.bind]

/-- The default precedence is one that a file may say. -/
theorem precedence_default : MeansPrecedence (.text expressionPrecedence) expressionPrecedence :=
  .word (.inl rfl)

/-- **A merge decides every field by its topmost layer.** It fails exactly if a table is out of
place or a layer says what has no meaning for a field, also where the layer above hides it; and a
file that says the same for every field, whatever else is in it, gives the same. -/
theorem mergeSettings_layered (payload : List (LooseText × Value)) (o : Overrides) :
    ((∃ fault, mergeSettings {} payload o = .error fault) ↔ Wrong payload o) ∧
      (∀ s, mergeSettings {} payload o = .ok s ↔
        ¬ Wrong payload o ∧ Layered {} [.ofOverrides o, .ofFile payload] s) ∧
      ∀ payload', SameFields payload payload' →
        mergeSettings {} payload' o = mergeSettings {} payload o := by
  refine ⟨?_, fun s => mergeSettings_eq_ok precedence_default, fun payload' h => ?_⟩
  · have hexists : (∃ s, mergeSettings {} payload o = .ok s) ↔ ¬ Wrong payload o :=
      exists_mergeSettings precedence_default
    cases hmerge : mergeSettings {} payload o with
    | ok s =>
      refine iff_of_false (fun ⟨_, h⟩ => nomatch h) (hexists.mp ⟨s, hmerge⟩)
    | error fault =>
      refine iff_of_true ⟨fault, rfl⟩ (not_not.mp fun hright => ?_)
      obtain ⟨s, hs⟩ := hexists.mpr hright
      cases hmerge.symm.trans hs
  · rw [mergeSettings, mergeSettings, overlay_congr h]

/-- An override does not excuse a wrong unit below it. A table that nothing reads does no harm. -/
theorem hidden_unit_refused :
    (∃ fault, mergeSettings {} [("indent", .table [("unit", .int 0)])] { indentUnit := .int 4 } =
      .error fault) ∧
    mergeSettings {} [("extra", .table [("unit", .int 0)])] {} = mergeSettings {} [] {} := by
  constructor
  · refine (mergeSettings_layered _ _).1.mpr (.file (.unit ⟨?_, ?_⟩))
    · rintro (⟨⟨⟩⟩ | ⟨-, ⟨⟩⟩)
    · rintro _ _ ⟨⟩ (hn | _)
      exact absurd hn (by decide)
  · exact (mergeSettings_layered [] {}).2.2 _ ⟨by simp [Misplaced, Value.field?], rfl⟩

end Merge

end MarkupIndent.Settings
