import MarkupIndent.Proofs.RuleOrder

/-!
# The last rule for a token

Declarations are written over each other, and the last one that speaks of a token decides. So the
entry of a token can be told without carrying anything out: look through the declarations for the
last one that speaks of it. Most do not, because a node speaks of its own tokens only.

* `Declaration.rule?`, `lastRule?`: what a declaration says of a token, and what the last of
  several says.
* `entries_applyAll`: carrying declarations out gives every token what the last of them says.
* `Declaration.Within`: a declaration that speaks of a stretch of tokens only.
* `within_ofNode`: **a node speaks of the tokens after its first one, up to its last.**
* `entry_build`: the entry of a token in the graph of a document.
-/

namespace MarkupIndent.Margin

open Markup Settings Text

/-! ## What declarations say -/

/-- The entry by which a token hangs on a base. -/
def OffsetEntry.hang (i base : Nat) (kind : OffsetKind) (weight : Int) : OffsetEntry :=
  ⟨i, base, kind, if kind = .relative then weight else 0⟩

/-- The entry of a token whose line keeps the indentation that it has. -/
def OffsetEntry.pin (i : Nat) : OffsetEntry := .hang i i .pinned 0

/-- What a declaration says of a token of the document. -/
def Declaration.rule? (i : Nat) : Declaration → Option OffsetEntry
  | .offset target base kind weight =>
    if target = i then some (.hang i base kind weight) else none
  | .range first last base kind weight =>
    if first ≤ i ∧ i ≤ last then some (.hang i base kind weight) else none
  | .pin first last => if first ≤ i ∧ i ≤ last then some (.pin i) else none
  | .request .. | .refuse _ => none

/-- What the last declaration that speaks of a token says. -/
def lastRule? (i : Nat) : List Declaration → Option OffsetEntry
  | [] => none
  | d :: rest => (lastRule? i rest).or (d.rule? i)

@[simp] theorem lastRule?_nil (i : Nat) : lastRule? i [] = none := rfl

theorem lastRule?_cons (i : Nat) (d : Declaration) (rest : List Declaration) :
    lastRule? i (d :: rest) = (lastRule? i rest).or (d.rule? i) := rfl

theorem lastRule?_append (i : Nat) (a b : List Declaration) :
    lastRule? i (a ++ b) = (lastRule? i b).or (lastRule? i a) := by
  induction a with
  | nil => simp
  | cons d rest ih => rw [List.cons_append, lastRule?_cons, ih, lastRule?_cons, Option.or_assoc]

/-- What follows decides if it speaks of the token. -/
theorem lastRule?_of_right {i : Nat} {a b : List Declaration} {e : OffsetEntry}
    (h : lastRule? i b = some e) : lastRule? i (a ++ b) = some e := by
  rw [lastRule?_append, h, Option.some_or]

/-- What comes before decides if what follows does not speak of the token. -/
theorem lastRule?_of_left {i : Nat} {a b : List Declaration} (h : lastRule? i b = none) :
    lastRule? i (a ++ b) = lastRule? i a := by
  rw [lastRule?_append, h, Option.none_or]

/-- What is said last of a token is said by one of the declarations. -/
theorem exists_of_lastRule? {i : Nat} {ds : List Declaration} {e : OffsetEntry}
    (h : lastRule? i ds = some e) : ∃ d ∈ ds, d.rule? i = some e := by
  induction ds with
  | nil => cases h
  | cons d rest ih =>
    rw [lastRule?_cons, Option.or_eq_some_iff] at h
    rcases h with h | ⟨-, h⟩
    · obtain ⟨d', hd', h⟩ := ih h
      exact ⟨d', List.mem_cons_of_mem _ hd', h⟩
    · exact ⟨d, List.mem_cons_self, h⟩

section FlatMap

variable {α : Type} {i : Nat} {e : OffsetEntry} {xs : List α} {f : α → List Declaration}

theorem eq_of_lastRule?_flatMap (hall : ∀ x ∈ xs, ∀ e', lastRule? i (f x) = some e' → e' = e)
    {e' : OffsetEntry} (h : lastRule? i (xs.flatMap f) = some e') : e' = e := by
  induction xs with
  | nil => cases h
  | cons y rest ih =>
    rw [List.flatMap_cons, lastRule?_append, Option.or_eq_some_iff] at h
    rcases h with h | ⟨-, h⟩
    · exact ih (fun x hx => hall x (List.mem_cons_of_mem _ hx)) h
    · exact hall y List.mem_cons_self e' h

/-- If all who speak of a token say the same, then so does the last of them. -/
theorem lastRule?_flatMap (hall : ∀ x ∈ xs, ∀ e', lastRule? i (f x) = some e' → e' = e) {x : α}
    (hx : x ∈ xs) (h : lastRule? i (f x) = some e) : lastRule? i (xs.flatMap f) = some e := by
  obtain ⟨before, after, rfl⟩ := List.append_of_mem hx
  rw [List.flatMap_append, List.flatMap_cons]
  refine lastRule?_of_right ?_
  cases hafter : lastRule? i (after.flatMap f) with
  | none => rw [lastRule?_of_left hafter, h]
  | some e' =>
    have heq := eq_of_lastRule?_flatMap
      (fun y hy => hall y (List.mem_append_right _ (List.mem_cons_of_mem _ hy))) hafter
    rw [lastRule?_of_right hafter, heq]

end FlatMap

theorem lastRule?_single (i : Nat) (d : Declaration) : lastRule? i [d] = d.rule? i := by
  rw [lastRule?_cons, lastRule?_nil, Option.none_or]

theorem lastRule?_pin {i first last : Nat} (h1 : first ≤ i) (h2 : i ≤ last) :
    lastRule? i [.pin first last] = some (.pin i) := by
  rw [lastRule?_single, Declaration.rule?, if_pos ⟨h1, h2⟩]

/-! ## Carrying declarations out -/

namespace OffsetGraph

variable {tokens : Array Token} {root : Nat} {g g' : OffsetGraph}

/-- One declaration writes the entry of its target, the root apart, and no other. -/
theorem entries_declare (h : g.Ordered tokens root) {target base : Nat} {kind : OffsetKind}
    {weight : Int} (hd : Hangs tokens target base kind weight)
    (hg : g.declare (.own target) (.own base) kind weight = .ok g') {i : Nat} (hi : i ≠ root) :
    g'.entries[i]? = if target = i then some (some (.hang i base kind weight))
      else g.entries[i]? := by
  have ht := hd.onTarget.lt
  simp only [declare, checkRule_ok hd.known hd.nonneg, h.ownIndex_ok ht,
    h.ownIndex_ok hd.onBase.lt, h.hasRoot, bind, Except.bind] at hg
  split at hg
  · next hr =>
    cases hg
    have hne : target ≠ i := fun heq => hi (heq.symm.trans (Option.some.inj hr).symm)
    rw [if_neg hne]
  · cases hg
    have hset : target < g.entries.size := by rw [h.size]; exact ht
    by_cases heq : target = i
    · subst heq
      rw [if_pos rfl]
      exact Array.getElem?_setIfInBounds_self_of_lt hset
    · rw [if_neg heq]
      exact Array.getElem?_setIfInBounds_ne heq

/-- A rule that is declared for tokens in turn writes their entries and no others. Each token may
hang on a base of its own. -/
theorem entries_fold {α : Type} (target base : α → Nat)
    {f : OffsetGraph → α → Except Fault OffsetGraph} {kind : OffsetKind} {weight : Int}
    {xs : List α}
    (hf : ∀ g, ∀ x ∈ xs, f g x = g.declare (.own (target x)) (.own (base x)) kind weight)
    (hd : ∀ x ∈ xs, Hangs tokens (target x) (base x) kind weight) (h : g.Ordered tokens root)
    (hg : xs.foldlM f g = .ok g') {i : Nat} (hi : i ≠ root) :
    (∃ x ∈ xs, target x = i ∧ g'.entries[i]? = some (some (.hang i (base x) kind weight))) ∨
      (∀ x ∈ xs, target x ≠ i) ∧ g'.entries[i]? = g.entries[i]? := by
  induction xs generalizing g with
  | nil =>
    cases hg
    exact .inr ⟨by simp, rfl⟩
  | cons x rest ih =>
    have hx := hd x List.mem_cons_self
    obtain ⟨u, hu, hord, -⟩ := ordered_declare h hx
    rw [List.foldlM_cons, hf g x List.mem_cons_self, hu] at hg
    rcases ih (fun g y hy => hf g y (List.mem_cons_of_mem _ hy))
      (fun y hy => hd y (List.mem_cons_of_mem _ hy)) hord hg with ⟨y, hy, h1, h2⟩ | ⟨h1, h2⟩
    · exact .inl ⟨y, List.mem_cons_of_mem _ hy, h1, h2⟩
    · rw [h2, entries_declare h hx hu hi]
      split
      · next heq => exact .inl ⟨x, List.mem_cons_self, heq, rfl⟩
      · next hne => exact .inr ⟨List.forall_mem_cons.mpr ⟨hne, h1⟩, rfl⟩

/-- A declaration writes what it says and nothing else. -/
theorem entries_apply (hx : Indexed tokens) (h : g.Ordered tokens root) {d : Declaration}
    (hd : d.Descends tokens) (hg : g.apply d = .ok g') {i : Nat} (hi : i ≠ root)
    (hs : Significant tokens i) :
    g'.entries[i]? = ((d.rule? i).map some).or g.entries[i]? := by
  have hmem : ∀ first last : Nat,
      (∃ t ∈ g.heads.between first last, t.index = i) ↔ first ≤ i ∧ i ≤ last := by
    intro first last
    rw [h.heads]
    constructor
    · rintro ⟨t, ht, rfl⟩
      obtain ⟨j, h1, h2, hj, -⟩ := mem_between.mp ht
      rw [hx j t hj]
      omega
    · rintro ⟨h1, h2⟩
      obtain ⟨t, ht, hb⟩ := hs
      exact ⟨t, mem_between.mpr ⟨i, by omega, by omega, ht, hb⟩, hx i t ht⟩
  have hsig : ∀ first last : Nat, ∀ t ∈ g.heads.between first last,
      Significant tokens t.index ∧ first ≤ t.index := by
    intro first last t ht
    rw [h.heads] at ht
    obtain ⟨j, h1, h2, hj, hb⟩ := mem_between.mp ht
    rw [hx j t hj]
    exact ⟨⟨t, hj, hb⟩, by omega⟩
  cases d with
  | offset target base kind weight =>
    rw [entries_declare h hd hg hi, Declaration.rule?]
    split <;> rfl
  | range first last base kind weight =>
    obtain ⟨h1, h2, h3, h4, h5⟩ := hd
    have hne : ∀ t ∈ g.heads.between first last, t.index ≠ base := by
      intro t ht
      have := (hsig first last t ht).2
      omega
    have hfold := entries_fold Token.index (fun _ => base)
      (fun k t ht => if_neg (hne t ht)) (fun t ht => ⟨(hsig first last t ht).1, h2, h3, h5,
        fun hp => absurd hp h4, fun _ => by have := (hsig first last t ht).2; omega⟩) h hg hi
    rw [Declaration.rule?]
    rcases hfold with ⟨t, ht, hti, he⟩ | ⟨hno, he⟩
    · rw [if_pos ((hmem first last).mp ⟨t, ht, hti⟩), he]
      rfl
    · rw [if_neg fun hin => (hmem first last).mpr hin |>.elim fun t ht => hno t ht.1 ht.2, he]
      rfl
  | pin first last =>
    have hfold := entries_fold Token.index Token.index
      (fun k t _ => rfl) (fun t ht => ⟨(hsig first last t ht).1, (hsig first last t ht).1, by simp,
        Int.le_refl 0, fun _ => rfl, fun hp => absurd rfl hp⟩) h hg hi
    rw [Declaration.rule?]
    rcases hfold with ⟨t, ht, hti, he⟩ | ⟨hno, he⟩
    · rw [if_pos ((hmem first last).mp ⟨t, ht, hti⟩), he, hti]
      rfl
    · rw [if_neg fun hin => (hmem first last).mpr hin |>.elim fun t ht => hno t ht.1 ht.2, he]
      rfl
  | request => exact hd.elim
  | refuse => exact hd.elim

/-- **The last declaration decides.** After declarations are carried out in turn, a token has the
entry that the last one gives it, and the one that it had if none speaks of it. -/
theorem entries_applyAll (hx : Indexed tokens) (h : g.Ordered tokens root)
    {ds : List Declaration} (hd : AllDescend tokens ds) (hg : g.applyAll ds = .ok g') {i : Nat}
    (hi : i ≠ root) (hs : Significant tokens i) :
    g'.entries[i]? = ((lastRule? i ds).map some).or g.entries[i]? := by
  induction ds generalizing g with
  | nil =>
    cases hg
    rfl
  | cons d rest ih =>
    obtain ⟨u, hu, hord, -⟩ := ordered_apply hx h (hd d List.mem_cons_self)
    have hg : u.applyAll rest = .ok g' := by
      rw [applyAll, List.foldlM_cons, hu] at hg
      exact hg
    rw [ih hord (fun e he => hd e (List.mem_cons_of_mem _ he)) hg,
      entries_apply hx h (hd d List.mem_cons_self) hu hi hs, lastRule?_cons]
    cases lastRule? i rest <;> rfl

end OffsetGraph

/-! ## Declarations about a stretch of tokens -/

/-- The declaration speaks of tokens after `lo` up to `hi` only. -/
def Declaration.Within (lo hi : Nat) : Declaration → Prop
  | .offset target _ _ _ => lo < target ∧ target ≤ hi
  | .range first last _ _ _ | .pin first last => lo < first ∧ last ≤ hi
  | .request .. | .refuse _ => False

/-- Declarations that all speak of a stretch of tokens only. -/
def AllWithin (lo hi : Nat) (ds : List Declaration) : Prop :=
  ∀ d ∈ ds, d.Within lo hi

section Within

variable {lo hi : Nat} {a b : List Declaration}

theorem allWithin_nil : AllWithin lo hi [] := by simp [AllWithin]

theorem allWithin_cons {d : Declaration} (hd : d.Within lo hi) (h : AllWithin lo hi a) :
    AllWithin lo hi (d :: a) :=
  List.forall_mem_cons.mpr ⟨hd, h⟩

theorem allWithin_single {d : Declaration} (hd : d.Within lo hi) : AllWithin lo hi [d] :=
  allWithin_cons hd allWithin_nil

theorem allWithin_flatMap {α : Type} {xs : List α} {f : α → List Declaration}
    (h : ∀ x ∈ xs, AllWithin lo hi (f x)) : AllWithin lo hi (xs.flatMap f) := by
  intro d hd
  obtain ⟨x, hx, hdx⟩ := List.mem_flatMap.mp hd
  exact h x hx d hdx

theorem AllWithin.mono {lo' hi' : Nat} (h : AllWithin lo hi a) (hlo : lo' ≤ lo) (hhi : hi ≤ hi') :
    AllWithin lo' hi' a := by
  intro d hd
  have := h d hd
  cases d <;> simp only [Declaration.Within] at this ⊢ <;> omega

/-- Of a token outside the stretch nothing is said. -/
theorem AllWithin.lastRule? {i : Nat} (h : AllWithin lo hi a) (hi : i ≤ lo ∨ hi < i) :
    lastRule? i a = none := by
  induction a with
  | nil => rfl
  | cons d rest ih =>
    have hd : d.rule? i = none := by
      have := h d List.mem_cons_self
      cases d <;> simp only [Declaration.Within, Declaration.rule?] at this ⊢ <;>
        exact if_neg (by omega)
    rw [lastRule?_cons, ih fun e he => h e (List.mem_cons_of_mem _ he), hd]
    rfl

/-- A token of which something is said is in the stretch. -/
theorem AllWithin.mem {i : Nat} {e : OffsetEntry} (h : AllWithin lo hi a)
    (he : Margin.lastRule? i a = some e) : lo < i ∧ i ≤ hi := by
  by_contra hout
  rw [h.lastRule? (by omega)] at he
  cases he

/-- What follows does not decide if it is about other tokens. -/
theorem AllWithin.lastRule?_append {i : Nat} (h : AllWithin lo hi b) (hi : i ≤ lo ∨ hi < i) :
    Margin.lastRule? i (a ++ b) = Margin.lastRule? i a :=
  lastRule?_of_left (h.lastRule? hi)

end Within

/-- An indenter speaks of the content of a block only. -/
def Indenter.Local (indenter : Indenter) : Prop :=
  ∀ (d : Document) (opener lo hi : Nat) (content : List Token),
    Tokenized d.text d.text.length d.tokens → Content d.tokens opener content →
      (∀ t ∈ content, lo < t.index ∧ t.index ≤ hi) →
        AllWithin lo hi (indenter.declarations content opener d)

theorem local_pinned (name : String) : (Indenter.pinned name).Local := by
  intro d opener lo hi content _ _ hin e he
  obtain ⟨t, ht, rfl⟩ := List.mem_map.mp he
  exact hin t ht

/-- The rule of a line of content, if its record is there. -/
theorem within_bracketRule {root t : Token} {scans : Array LineScan} {lo hi : Nat}
    (ht : lo < t.index ∧ t.index ≤ hi) (hs : t.line - root.line < scans.size) :
    (bracketRule root scans t).Within lo hi := by
  rw [bracketRule, Array.getElem?_eq_getElem hs]
  simp only
  split
  · exact ht
  split
  · exact ht
  · exact ht

/-- **The content of a block by bracket depth**: its region is there, and has a record for every
line of content. -/
theorem bracketDeclarations_eq {rules : LexicalRules} (hr : rules.Plain) {d : Document}
    {opener : Nat} {root : Token} {rest : List Token}
    (htok : Tokenized d.text d.text.length d.tokens) (hc : Content d.tokens opener (root :: rest)) :
    ∃ region, contentRegion? d root (rest.getLastD root) = some region ∧
      bracketDeclarations rules (root :: rest) opener d = .offset root.index opener .relative 1 ::
        rest.map (bracketRule root (scan rules region).toArray) ∧
      ∀ t ∈ rest, t.line - root.line < (scan rules region).length := by
  have hroot := (hc.mem root List.mem_cons_self).1
  have hmem : ∀ t ∈ root :: rest, d.tokens[t.index]? = some t := fun t ht => (hc.mem t ht).1
  have hle := (start_le_stop_getLastD htok hmem hc.ordered List.mem_cons_self).1
  have hregion := contentRegion?_eq (htok.token _ _ hroot) hle
  refine ⟨_, hregion, by rw [bracketDeclarations, hregion], fun t ht => ?_⟩
  have hti := hmem t (List.mem_cons_of_mem _ ht)
  have hlt := (List.pairwise_cons.mp hc.ordered).1 t ht
  have hstart := htok.ordered _ _ _ _ hlt hroot hti
  have hrlt := (htok.token _ _ hroot).lt
  have hstop := (start_le_stop_getLastD htok hmem hc.ordered (List.mem_cons_of_mem _ ht)).1
  rw [length_scan hr.marksOf]
  exact line_lt_of_region (htok.token _ _ hroot) (htok.token _ _ hti) (by omega) hstop

theorem local_bracketDepth (name : String) (languages : List String) {rules : LexicalRules}
    (hr : rules.Plain) : (Indenter.bracketDepth name languages rules).Local := by
  intro d opener lo hi content htok hc hin
  cases content with
  | nil => exact allWithin_nil
  | cons root rest =>
    obtain ⟨region, -, heq, hlines⟩ := bracketDeclarations_eq hr htok hc
    show AllWithin lo hi (bracketDeclarations rules (root :: rest) opener d)
    rw [heq]
    refine allWithin_cons (hin root List.mem_cons_self) fun e he => ?_
    obtain ⟨t, ht, rfl⟩ := List.mem_map.mp he
    refine within_bracketRule (hin t (List.mem_cons_of_mem _ ht)) ?_
    rw [List.size_toArray]
    exact hlines t ht

/-- No indenter of a registry speaks of more than its block. -/
def Registry.Local (registry : Registry) : Prop :=
  ∀ language indenter, registry.select language = .ok indenter → indenter.Local

/-- The indenters of the default registry: by bracket depth with marks that are plain, or as it
is. -/
theorem select_default {language : List Char} {indenter : Indenter}
    (h : Registry.default.select language = .ok indenter) :
    (∃ name languages, ∃ rules : LexicalRules, rules.Plain ∧
      indenter = .bracketDepth name languages rules ∧ indenter ∈ Registry.default.indenters ∧
        indenter.supports language = true) ∨
    indenter = .pinned "pinned" ∧
      ∀ i ∈ Registry.default.indenters, i.supports language = false := by
  unfold Registry.select at h
  cases hf : Registry.default.indenters.find? fun i : Indenter => i.supports language with
  | none =>
    rw [hf] at h
    cases h
    exact .inr ⟨rfl, fun i hi => by
      simpa using List.find?_eq_none.mp hf i hi⟩
  | some found =>
    rw [hf] at h
    obtain rfl : found = indenter := Except.ok.inj h
    have hmem := List.mem_of_find?_eq_some hf
    have hsup : found.supports language = true :=
      List.find?_some (p := fun i : Indenter => i.supports language) hf
    refine .inl ?_
    have hcases := hmem
    simp only [Registry.default, List.mem_cons, List.not_mem_nil, or_false] at hcases
    rcases hcases with rfl | rfl | rfl
    · exact ⟨_, _, _, plain_scriptRules, rfl, hmem, hsup⟩
    · exact ⟨_, _, _, plain_styleRules, rfl, hmem, hsup⟩
    · exact ⟨_, _, _, plain_sassRules, rfl, hmem, hsup⟩

theorem local_default : Registry.default.Local := by
  intro language indenter h
  rcases select_default h with ⟨name, languages, rules, hr, rfl, -⟩ | ⟨rfl, -⟩
  · exact local_bracketDepth name languages hr
  · exact local_pinned "pinned"

/-! ## Tags and nodes -/

theorem Declaration.Owned.within {tokens : Array Token} {align : Bool} {lo hi : Nat}
    {d : Declaration} (h : d.Owned tokens align lo hi) : d.Within lo hi := by
  cases h with
  | pin h1 h2 => exact ⟨h1, h2⟩
  | deeper _ h1 h2 h3 => exact ⟨Nat.lt_of_le_of_lt h1 h2, h3⟩
  | asDeep _ _ h1 h2 h3 | aligned _ _ _ h1 h2 h3 => exact ⟨Nat.lt_of_le_of_lt h1 h2, h3⟩

namespace Rules

theorem AllOwned.within {rules : Rules} {lo hi : Nat} {ds : List Declaration}
    (h : rules.AllOwned lo hi ds) : AllWithin lo hi ds :=
  fun d hd => (h d hd).within

theorem within_ofEndTag {rules : Rules} {tag : EndTag} (ht : tag.Fits rules.document.tokens) :
    AllWithin tag.first tag.last (rules.ofEndTag tag) :=
  (owned_ofEndTag ht).within

section Grounded

variable {rules : Rules} (hg : rules.Grounded)
include hg

/-- Braces speak of what is between them, whatever that is. -/
theorem within_ofBraces (first last : Nat) :
    AllWithin first last (rules.ofBraces first last) := by
  unfold ofBraces
  split
  · refine allWithin_cons ⟨Nat.lt_succ_self first, Nat.le_refl _⟩ fun e he => ?_
    obtain ⟨t, ht, rfl⟩ := List.mem_map.mp he
    rw [hg.heads, List.mem_filter, mem_between] at ht
    obtain ⟨⟨i, h1, h2, hi, -⟩, -⟩ := ht
    rw [indexed_of_tokenized hg.tokens i t hi]
    exact ⟨by omega, by omega⟩
  · exact allWithin_nil

theorem within_ofMustache (m : Mustache) :
    AllWithin m.first m.last (rules.ofMustache m) := by
  unfold ofMustache
  split
  · exact allWithin_single ⟨Nat.lt_succ_self _, Nat.le_refl _⟩
  · exact within_ofBraces hg m.first m.last

theorem within_ofAttribute {a : Attribute} (ha : a.Fits rules.document.tokens) :
    AllWithin a.first a.last (rules.ofAttribute a) :=
  (owned_ofAttribute hg ha).within

theorem within_ofStartTag {tag : StartTag} (ht : tag.Fits rules.document.tokens) :
    AllWithin tag.first tag.last (rules.ofStartTag tag) :=
  (owned_ofStartTag hg ht).within

variable (hl : rules.registry.Local)
include hl

theorem within_ofContent {opener lo n : Nat} {language : List Char}
    (ho : Significant rules.document.tokens opener) (hlo : opener < lo)
    (hraw : ∀ i ∈ List.range' lo n, ∃ t,
      rules.document.tokens[i]? = some t ∧ t.kind = .rawText) :
    AllWithin (lo - 1) (lo + n - 1) (rules.ofContent (List.range' lo n) opener language) := by
  have hc := content_tokensAt hg ho hlo hraw
  have hin : ∀ t ∈ rules.tokensAt (List.range' lo n), lo - 1 < t.index ∧ t.index ≤ lo + n - 1 := by
    intro t ht
    obtain ⟨i, hi, hti⟩ := List.mem_filterMap.mp ht
    rw [indexed_of_tokenized hg.tokens i t hti]
    have := List.mem_range'_1.mp hi
    omega
  unfold ofContent
  split
  · exact allWithin_nil
  · next first rest hlist =>
    rw [hlist] at hc hin
    split
    · obtain ⟨indenter, hsel, -⟩ := hg.registry language
      rw [hsel]
      exact hl language indenter hsel _ _ _ _ _ hg.tokens hc hin
    · refine allWithin_single ⟨(hin first List.mem_cons_self).1, (hin _ ?_).2⟩
      rw [List.getLastD_eq_getLast?, List.getLast?_eq_getElem?]
      cases h : rest[rest.length - 1]? with
      | none => exact List.mem_cons_self
      | some t => exact List.mem_cons_of_mem _ (List.mem_of_getElem? h)

theorem AllDeclared.within {lo hi : Nat} {ds : List Declaration} (h : rules.AllDeclared lo hi ds) :
    AllWithin lo hi ds := by
  intro d hd
  cases h d hd with
  | owned h => exact h.within
  | content ho h1 h2 h3 hraw hd =>
    exact (within_ofContent hg hl ho h2 hraw).mono (by omega) (by omega) d hd

/-- **A node speaks of its own tokens only**, and not of its first one. -/
theorem within_ofNode (n : Node) (h : n.Fits rules.document.tokens) :
    AllWithin n.first n.last (rules.ofNode n) :=
  (declared_ofNode hg n h).within hg hl

theorem within_ofNodes (nodes : List Node) (lo hi top : Nat)
    (h : NodesTile rules.document.tokens lo nodes hi) (htop : hi ≤ top + 1) :
    AllWithin lo top (rules.ofNodes nodes) :=
  (declared_ofNodes hg nodes lo hi top h htop).within hg hl

theorem within_ofBranches (branches : List Branch) (lo hi top : Nat)
    (h : BranchesTile rules.document.tokens lo branches hi) (htop : hi ≤ top + 1) :
    AllWithin lo top (rules.ofBranches branches) :=
  (declared_ofBranches hg branches lo hi top h htop).within hg hl

end Grounded

end Rules

/-! ## The graph of a document -/

/-- **The entry of a token** in the graph of a document: every significant token but the root has
the one that the last rule for it gives. -/
theorem entry_build {text : List Char} {d : Document} {s : Settings} {registry : Registry}
    {rules : Rules} {root : Token} (hd : Document.read text = .ok d) (hr : registry.Descends)
    (hrules : Rules.ofSettings d s registry = .ok rules)
    (hroot : (Heads.ofTokens d.tokens).first? = some root) :
    ∃ g, OffsetGraph.build d s registry = .ok g ∧ g.Ordered d.tokens root.index ∧
      ∀ i, Significant d.tokens i → i ≠ root.index →
        g.entry i = .ok (some ((lastRule? i (rules.ofNodes d.nodes)).getD
          (.hang i root.index .same 0))) := by
  obtain ⟨unit, hu, -⟩ := bind_eq_ok.mp hrules
  obtain ⟨g, hg, hord, -⟩ := ordered_build hd hr hu hroot
  obtain ⟨rfl, hgr⟩ := grounded_of_settings hd hr hrules
  have hx := indexed_of_tokenized hgr.tokens
  obtain ⟨r, hri, hrb, hbefore⟩ := first?_spec hroot
  have hrindex := hx r root hri
  have hsig : Significant rules.document.tokens root.index := hrindex ▸ ⟨root, hri, hrb⟩
  obtain ⟨g0, h1, h2⟩ := ordered_setRoot hsig.lt
  have hds := Rules.descends_below hgr hsig (tile_of_read hd)
  refine ⟨g, hg, hord, fun i hi hne => ?_⟩
  have hgall : g0.applyAll (rules.below root.index) = .ok g := by
    simpa only [OffsetGraph.build, hrules, hgr.heads, hroot, h1, bind, Except.bind] using hg
  have hlt : root.index < i := by
    obtain ⟨t, ht, hb⟩ := hi
    rcases Nat.lt_trichotomy i r with hlt | heq | hgt
    · rw [hbefore i t hlt ht] at hb
      cases hb
    · exact absurd (heq.trans hrindex.symm) hne
    · omega
  have hsize : i ≤ rules.heads.size - 1 := by
    have := hi.lt
    rw [hgr.heads]
    show i ≤ rules.document.tokens.size - 1
    omega
  rw [OffsetGraph.entry, OffsetGraph.entries_applyAll hx h2 hds hgall hne hi, Rules.below,
    lastRule?_cons, Declaration.rule?, if_pos ⟨hlt, hsize⟩]
  cases lastRule? i (rules.ofNodes rules.document.nodes) <;> rfl

/-- Settings with a unit give rules. -/
theorem exists_rules (d : Document) (registry : Registry) {s : Settings} {unit : IndentUnit}
    (hu : IndentUnit.ofValue s.indentUnit s.mixedAlignment = .ok unit) :
    ∃ rules, Rules.ofSettings d s registry = .ok rules := by
  simp only [Rules.ofSettings, hu, bind, Except.bind]
  exact ⟨_, rfl⟩

/-- The rules that settings give hold of the tokens of the document, by the default registry. -/
theorem rules_of_settings {text : List Char} {d : Document} {s : Settings} {rules : Rules}
    (hd : Document.read text = .ok d) (hrules : Rules.ofSettings d s .default = .ok rules) :
    rules.document = d ∧ rules.Grounded ∧ rules.registry = .default ∧
      NodesTile d.tokens 0 d.nodes d.tokens.size := by
  obtain ⟨hdoc, hg⟩ := grounded_of_settings hd descends_default hrules
  obtain ⟨unit, -, h⟩ := bind_eq_ok.mp hrules
  cases h
  exact ⟨hdoc, hg, rfl, tile_of_read hd⟩

/-- The options of the rules are those of the settings. -/
theorem options_of_settings {d : Document} {s : Settings} {registry : Registry} {rules : Rules}
    (hrules : Rules.ofSettings d s registry = .ok rules) :
    rules.ignored = (s.ignoredNodes : List String).map (fun label => lower label.toList) ∧
      rules.indentRaw = s.indentRaw ∧
      ∃ unit, IndentUnit.ofValue s.indentUnit s.mixedAlignment = .ok unit ∧
        rules.alignAttributes = (s.alignAttributes && (!unit.usesTabs || s.mixedAlignment)) := by
  obtain ⟨unit, hu, h⟩ := bind_eq_ok.mp hrules
  cases h
  exact ⟨rfl, rfl, unit, hu, rfl⟩

end MarkupIndent.Margin
