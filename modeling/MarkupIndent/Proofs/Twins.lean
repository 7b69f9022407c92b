import MarkupIndent.Margin.Check
import MarkupIndent.Proofs.LineHeads

/-!
# Layouts that differ in their margins

Two layouts are twins if they have the same graph over tokens that stand on the same lines, those
that others are aligned with at the same distance from the heads of their lines, and the same
margins wherever the graph does not decide over them. Nothing else about a document enters into its
expected indentation: each step of a chain is the same in both, and so is what it ends in.

The tokens of the first layout may have some more before them, which the second does not.

* `Layout.Twin`: the relation, and `Layout.Partners`: tokens of one place in both.
* `headOf_twin`, `isChecked_twin`, `link_twin`: heads, checked lines and steps agree.
* `resolves_twin`: so do expected indentations.
* `Layout.Alike`, which can be decided, and `expected_of_alike`: documents that are the same up to
  the margins of checked lines have the same expected indentation, with a memo or without, or the
  same cycle.
-/

namespace MarkupIndent.Margin

open Markup Text

/-- An entry of a token that has `k` more tokens before it. -/
def OffsetEntry.moved (k : Nat) (e : OffsetEntry) : OffsetEntry :=
  { e with target := e.target + k, base := e.base + k }

namespace Layout

/-- Tokens of the same place in two layouts. -/
structure Partners (k : Nat) (l₁ l₂ : Layout) (i : Nat) (t₁ t₂ : Token) : Prop where
  first : l₁.document.tokens[i + k]? = some t₁
  second : l₂.document.tokens[i]? = some t₂

/-- The same graph over the same tokens, up to the margins of checked lines. -/
structure Twin (k : Nat) (l₁ l₂ : Layout) : Prop where
  unit : l₁.unit = l₂.unit
  heads₁ : l₁.graph.heads = .ofTokens l₁.document.tokens
  heads₂ : l₂.graph.heads = .ofTokens l₂.document.tokens
  indexed₁ : Indexed l₁.document.tokens
  indexed₂ : Indexed l₂.document.tokens
  root : ∀ i, l₁.graph.root = some (i + k) ↔ l₂.graph.root = some i
  entry : ∀ i, l₁.graph.entries[i + k]? =
    (l₂.graph.entries[i]?).map (Option.map (OffsetEntry.moved k))
  base : ∀ (i : Nat) (e : OffsetEntry), l₂.graph.entries[i]? = some (some e) →
    ∃ base₁ base₂, Partners k l₁ l₂ e.base base₁ base₂ ∧ base₁.isBlank = false ∧
      base₂.isBlank = false
  leads : ∀ i, Leads l₁.document.tokens.toList (i + k) ↔ Leads l₂.document.tokens.toList i
  line : ∀ (i g : Nat) (t₁ t₂ h₁ h₂ : Token), Partners k l₁ l₂ i t₁ t₂ →
    Partners k l₁ l₂ g h₁ h₂ → Governs l₂.document.tokens.toList g i →
      (h₁.line = t₁.line ↔ h₂.line = t₂.line)
  column : ∀ (i : Nat) (e : OffsetEntry) (g : Nat) (t₁ t₂ h₁ h₂ : Token),
    l₂.graph.entries[i]? = some (some e) → e.kind = .align → Partners k l₁ l₂ e.base t₁ t₂ →
      Partners k l₁ l₂ g h₁ h₂ → Governs l₂.document.tokens.toList g e.base →
        t₂.isBlank = false → h₂.line = t₂.line →
          (t₁.column : Int) - h₁.column = t₂.column - h₂.column
  margin : ∀ (g : Nat) (h₁ h₂ : Token), Partners k l₁ l₂ g h₁ h₂ →
    Leads l₂.document.tokens.toList g → l₁.isChecked h₁ = .ok false →
      l₂.isChecked h₂ = .ok false → l₁.leadingText h₁ = l₂.leadingText h₂

section Step

variable {k : Nat} {l₁ l₂ : Layout} (hl : Twin k l₁ l₂)
include hl

/-- The heads of tokens of the same place are of the same place. -/
theorem headOf_twin {i : Nat} {t₁ t₂ : Token} (ht : Partners k l₁ l₂ i t₁ t₂)
    (hb₁ : t₁.isBlank = false) (hb₂ : t₂.isBlank = false) :
    ∃ g h₁ h₂, l₁.graph.heads.headOf t₁ = .ok h₁ ∧ l₂.graph.heads.headOf t₂ = .ok h₂ ∧
      Partners k l₁ l₂ g h₁ h₂ ∧ Governs l₂.document.tokens.toList g i := by
  obtain ⟨g, h₂, h1, h2, hgov⟩ := headOf_spec hl.indexed₂ ht.second hb₂
  obtain ⟨g₁, h₁, h3, h4, hgov₁⟩ := headOf_spec hl.indexed₁ ht.first hb₁
  have hshift : Governs l₁.document.tokens.toList (g + k) (i + k) := by
    refine ⟨(hl.leads g).mpr hgov.leads, Nat.add_le_add_right hgov.le k, fun j hj hji hlead => ?_⟩
    obtain ⟨j, rfl⟩ : ∃ n, j = n + k := ⟨j - k, by omega⟩
    exact hgov.last j (by omega) (by omega) ((hl.leads j).mp hlead)
  obtain rfl := hgov₁.eq hshift
  rw [hl.heads₁, hl.heads₂]
  exact ⟨g, h₁, h₂, h3, h1, ⟨h4, h2⟩, hgov⟩

/-- What the graphs have for tokens of the same place. -/
theorem entry_twin {i : Nat} {t₁ t₂ : Token} (ht : Partners k l₁ l₂ i t₁ t₂) :
    (∃ fault, l₁.graph.entry t₁.index = .error fault ∧ l₂.graph.entry t₂.index = .error fault) ∨
    (l₁.graph.entry t₁.index = .ok none ∧ l₂.graph.entry t₂.index = .ok none) ∨
    ∃ (e : OffsetEntry) (base₁ base₂ : Token) (g : Nat) (h₁ h₂ : Token),
      l₂.graph.entries[i]? = some (some e) ∧
      l₁.graph.entry t₁.index = .ok (some (e.moved k)) ∧ l₂.graph.entry t₂.index = .ok (some e) ∧
      l₁.graph.heads.token (e.moved k).base = .ok base₁ ∧
      l₂.graph.heads.token e.base = .ok base₂ ∧
      l₁.graph.heads.headOf base₁ = .ok h₁ ∧ l₂.graph.heads.headOf base₂ = .ok h₂ ∧
      Partners k l₁ l₂ e.base base₁ base₂ ∧ base₂.isBlank = false ∧ Partners k l₁ l₂ g h₁ h₂ ∧
      Governs l₂.document.tokens.toList g e.base := by
  have hentry := hl.entry i
  rw [hl.indexed₁ _ _ ht.first, hl.indexed₂ _ _ ht.second]
  unfold OffsetGraph.entry
  rw [hentry]
  cases he : l₂.graph.entries[i]? with
  | none => exact .inl ⟨_, rfl, rfl⟩
  | some entry =>
    cases entry with
    | none => exact .inr (.inl ⟨rfl, rfl⟩)
    | some e =>
      obtain ⟨base₁, base₂, hbase, hb₁, hb₂⟩ := hl.base i e he
      obtain ⟨g, h₁, h₂, h1, h2, h3, h4⟩ := headOf_twin hl hbase hb₁ hb₂
      refine .inr (.inr ⟨e, base₁, base₂, g, h₁, h₂, rfl, rfl, rfl, ?_, ?_, h1, h2, hbase, hb₂, h3,
        h4⟩)
      · simp only [hl.heads₁, Heads.token, Heads.ofTokens, OffsetEntry.moved, hbase.first]
      · simp only [hl.heads₂, Heads.token, Heads.ofTokens, hbase.second]

theorem root_twin {i : Nat} {t₁ t₂ : Token} (ht : Partners k l₁ l₂ i t₁ t₂) :
    l₁.graph.root = some t₁.index ↔ l₂.graph.root = some t₂.index := by
  rw [hl.indexed₁ _ _ ht.first, hl.indexed₂ _ _ ht.second]
  exact hl.root i

/-- The graphs decide over the same lines. -/
theorem isChecked_twin {i : Nat} {t₁ t₂ : Token} (ht : Partners k l₁ l₂ i t₁ t₂) :
    l₁.isChecked t₁ = l₂.isChecked t₂ := by
  have hroot := root_twin hl ht
  unfold Layout.isChecked
  by_cases hr : l₂.graph.root = some t₂.index
  · rw [if_pos hr, if_pos (hroot.mpr hr)]
  rw [if_neg hr, if_neg (mt hroot.mp hr)]
  rcases entry_twin hl ht with ⟨fault, h1, h2⟩ | ⟨h1, h2⟩ |
    ⟨e, base₁, base₂, g, h₁, h₂, -, h1, h2, h3, h4, h5, h6, -, -, hg, -⟩
  · simp only [h1, h2, bind, Except.bind]
  · simp only [h1, h2, bind, Except.bind]
  · have hkind : (e.moved k).kind = e.kind := rfl
    have hsame : (h₁.index != t₁.index) = (h₂.index != t₂.index) := by
      rw [hl.indexed₁ _ _ ht.first, hl.indexed₂ _ _ ht.second, hl.indexed₁ _ _ hg.first,
        hl.indexed₂ _ _ hg.second, Bool.eq_iff_iff, bne_iff_ne, bne_iff_ne]
      omega
    simp only [h1, h2, h3, h4, h5, h6, hkind, hsame, bind, Except.bind]

theorem actual_twin {g : Nat} {h₁ h₂ : Token} (hg : Partners k l₁ l₂ g h₁ h₂)
    (hlead : Leads l₂.document.tokens.toList g) (hc : l₂.isChecked h₂ = .ok false) :
    l₁.actual h₁ = l₂.actual h₂ := by
  unfold Layout.actual
  rw [hl.margin g h₁ h₂ hg hlead (isChecked_twin hl hg ▸ hc) hc, hl.unit]

/-- The rule of an entry does the same in both. -/
theorem adjust_twin {i : Nat} {e : OffsetEntry} {base₁ base₂ : Token} {g : Nat} {h₁ h₂ : Token}
    (he : l₂.graph.entries[i]? = some (some e)) (hbase : Partners k l₁ l₂ e.base base₁ base₂) (hb : base₂.isBlank = false)
    (hg : Partners k l₁ l₂ g h₁ h₂)
    (hgov : Governs l₂.document.tokens.toList g e.base) (x : Indentation) :
    l₁.adjust (e.moved k) base₁ h₁ x = l₂.adjust e base₂ h₂ x := by
  have hline := hl.line _ _ _ _ _ _ hbase hg hgov
  unfold Layout.adjust
  cases hkind : e.kind with
  | relative | same | pinned | unknown label => simp only [OffsetEntry.moved, hkind, hl.unit]
  | align =>
    simp only [OffsetEntry.moved, hkind, hl.unit]
    by_cases h : h₂.line = base₂.line
    · rw [if_pos h, if_pos (hline.mpr h), hl.column i e g _ _ _ _ he hkind hbase hg hgov hb h]
    · rw [if_neg h, if_neg (mt hline.mp h)]

end Step

/-- The same step in both layouts: the same fault or end, or hops to heads of the same place. -/
inductive LinkTwin (k : Nat) (l₁ l₂ : Layout) : Except Fault Link → Except Fault Link → Prop
  | fault (fault : Fault) : LinkTwin k l₁ l₂ (.error fault) (.error fault)
  | settled (x : Indentation) : LinkTwin k l₁ l₂ (.ok (.settled x)) (.ok (.settled x))
  | hop {e : OffsetEntry} {base₁ base₂ : Token} {g : Nat} {h₁ h₂ : Token} :
      Partners k l₁ l₂ g h₁ h₂ → Leads l₂.document.tokens.toList g →
      (∀ x, l₁.adjust (e.moved k) base₁ h₁ x = l₂.adjust e base₂ h₂ x) →
      LinkTwin k l₁ l₂ (.ok (.hop (e.moved k) base₁ h₁)) (.ok (.hop e base₂ h₂))

section Run

variable {k : Nat} {l₁ l₂ : Layout} (hl : Twin k l₁ l₂)
include hl

/-- **Each step of a chain is the same in both.** -/
theorem link_twin {i : Nat} {t₁ t₂ : Token} (ht : Partners k l₁ l₂ i t₁ t₂)
    (hlead : Leads l₂.document.tokens.toList i) (hroot : l₂.graph.root ≠ some t₂.index) :
    LinkTwin k l₁ l₂ (l₁.link t₁) (l₂.link t₂) := by
  unfold Layout.link
  have hchecked : ∀ e, l₂.graph.entry t₂.index = .ok e → (∀ e', e = some e' → e'.kind = .pinned) →
      l₂.isChecked t₂ = .ok false := by
    intro e he hpin
    unfold Layout.isChecked
    rw [if_neg hroot, he]
    cases e with
    | none => rfl
    | some e => simp [hpin e rfl, bind, Except.bind]
  have hsettled : l₂.isChecked t₂ = .ok false →
      LinkTwin k l₁ l₂ (l₁.actual t₁ >>= fun x => .ok (.settled x))
        (l₂.actual t₂ >>= fun x => .ok (.settled x)) := by
    intro hc
    rw [actual_twin hl ht hlead hc]
    cases l₂.actual t₂ with
    | error fault => exact .fault fault
    | ok x => exact .settled x
  rcases entry_twin hl ht with ⟨fault, h1, h2⟩ | ⟨h1, h2⟩ |
    ⟨e, base₁, base₂, g, h₁, h₂, he, h1, h2, h3, h4, h5, h6, hbase, hb, hg, hgov⟩
  · rw [h1, h2]
    exact .fault fault
  · have := hsettled (hchecked none h2 (by simp))
    rw [h1, h2]
    exact this
  · have hkind : (e.moved k).kind = e.kind := rfl
    have hadjust := adjust_twin hl he hbase hb hg hgov
    rw [h1, h2]
    simp only [bind, Except.bind, hkind]
    split
    · next hpin => exact hsettled (hchecked _ h2 (by simpa using hpin))
    · simp only [h3, h4, h5, h6, isChecked_twin hl hg]
      cases hc : l₂.isChecked h₂ with
      | error fault => exact .fault fault
      | ok checked =>
        cases checked with
        | true => exact .hop hg hgov.leads hadjust
        | false =>
          simp only [Bool.false_eq_true, if_false]
          rw [actual_twin hl hg hgov.leads hc]
          cases l₂.actual h₂ with
          | error fault => exact .fault fault
          | ok x =>
            simp only [hadjust]
            cases l₂.adjust e base₂ h₂ x with
            | error fault => exact .fault fault
            | ok y => exact .settled y

/-- **Twins have the same expected indentation.** -/
theorem resolves_twin {i : Nat} {t₁ t₂ : Token} {x : Indentation}
    (ht : Partners k l₁ l₂ i t₁ t₂) (hlead : Leads l₂.document.tokens.toList i)
    (h : l₁.Resolves t₁ x) : l₂.Resolves t₂ x := by
  induction h generalizing i t₂ with
  | root hr => exact .root ((root_twin hl ht).mp hr)
  | settled hr hk =>
    have hr := mt (root_twin hl ht).mpr hr
    have hstep := link_twin hl ht hlead hr
    rw [hk] at hstep
    generalize hk₂ : l₂.link t₂ = k₂ at hstep
    cases hstep with
    | settled => exact .settled hr hk₂
  | hop hr hk _ ha ih =>
    have hr := mt (root_twin hl ht).mpr hr
    have hstep := link_twin hl ht hlead hr
    rw [hk] at hstep
    generalize hk₂ : l₂.link t₂ = k₂ at hstep
    cases hstep with
    | hop hg hglead hadjust =>
      rw [hadjust] at ha
      exact .hop hr hk₂ (ih hg hglead) ha

end Run

/-- Where nothing is known and nothing waits, a head other than the root takes a step. -/
theorem resolveFrom_link {l : Layout} {memo : Memo} {active : List Nat} {t : Token}
    (hx : memo.lookup t.index = none) (ha : t.index ∉ active) (hr : l.graph.root ≠ some t.index) :
    l.resolveFrom memo active t = (match l.link t with
      | .error fault => .error fault
      | .ok (.settled x) => .ok (x, (t.index, x) :: memo)
      | .ok (.hop e base other) => do
        let (x, memo) ← l.resolveFrom memo (active ++ [t.index]) other
        let x ← l.adjust e base other x
        .ok (x, (t.index, x) :: memo)) := by
  rw [resolveFrom]
  simp only [hx, dif_neg ha, if_neg hr]
  split <;> simp_all

/-- Twins that begin alike agree with any memo, and run into the same cycle if into any. -/
theorem resolveFrom_twin {l₁ l₂ : Layout} (hl : Twin 0 l₁ l₂) {i : Nat} {t₁ t₂ : Token}
    (ht : Partners 0 l₁ l₂ i t₁ t₂) (hlead : Leads l₂.document.tokens.toList i) (memo : Memo)
    (active : List Nat) : l₁.resolveFrom memo active t₁ = l₂.resolveFrom memo active t₂ := by
  have hindex : ∀ {i : Nat} {t₁ t₂ : Token}, Partners 0 l₁ l₂ i t₁ t₂ → t₁.index = t₂.index := by
    intro i t₁ t₂ ht
    rw [hl.indexed₁ _ _ ht.first, hl.indexed₂ _ _ ht.second, Nat.add_zero]
  fun_induction l₁.resolveFrom memo active t₁ generalizing i t₂ with
  | case1 active t₁ x hx =>
    rw [hindex ht] at hx
    unfold resolveFrom
    simp only [hx]
  | case2 active t₁ hx ha =>
    rw [hindex ht] at hx ha ⊢
    unfold resolveFrom
    simp only [hx, dif_pos ha]
  | case3 active t₁ hx ha hr =>
    have hr := (root_twin hl ht).mp hr
    rw [hindex ht] at hx ha ⊢
    unfold resolveFrom
    simp only [hx, dif_neg ha, if_pos hr]
  | case4 active t₁ hx ha hr fault hk =>
    have hr := mt (root_twin hl ht).mpr hr
    have hstep := link_twin hl ht hlead hr
    rw [hk] at hstep
    generalize hk₂ : l₂.link t₂ = k₂ at hstep
    cases hstep
    rw [hindex ht] at hx ha
    rw [resolveFrom_link hx ha hr, hk₂]
  | case5 active t₁ hx ha hr x hk =>
    have hr := mt (root_twin hl ht).mpr hr
    have hstep := link_twin hl ht hlead hr
    rw [hk] at hstep
    generalize hk₂ : l₂.link t₂ = k₂ at hstep
    cases hstep
    rw [hindex ht] at hx ha ⊢
    rw [resolveFrom_link hx ha hr, hk₂]
  | case6 active t₁ hx ha hr e base other hk ih =>
    have hr := mt (root_twin hl ht).mpr hr
    have hstep := link_twin hl ht hlead hr
    rw [hk] at hstep
    generalize hk₂ : l₂.link t₂ = k₂ at hstep
    cases hstep with
    | hop hg hglead hadjust =>
      rw [hindex ht] at hx ha ih ⊢
      rw [resolveFrom_link hx ha hr, hk₂]
      simp only [ih hg hglead, hadjust]

/-! ## Documents that are alike -/

/-- How far a token is to the right of the head of its line, if it stands on the head's own line. -/
def distance? (l : Layout) (t : Token) : Option Int :=
  match l.graph.heads.headOf t with
  | .ok h => if h.line = t.line then some ((t.column : Int) - h.column) else none
  | .error _ => none

/-- Two documents with the same graph, whose tokens stand on the same lines, at the same distance
from the heads of their lines, and whose lines begin alike where the graph does not decide over
them. The margins of the lines it decides over may be anything. -/
structure Alike (l₁ l₂ : Layout) : Prop where
  unit : l₁.unit = l₂.unit
  heads₁ : l₁.graph.heads = .ofTokens l₁.document.tokens
  heads₂ : l₂.graph.heads = .ofTokens l₂.document.tokens
  indexed₁ : Indexed l₁.document.tokens
  indexed₂ : Indexed l₂.document.tokens
  size : l₁.document.tokens.size = l₂.document.tokens.size
  token : ∀ (i : Nat) (t₁ t₂ : Token), l₁.document.tokens[i]? = some t₁ →
    l₂.document.tokens[i]? = some t₂ →
      t₁.isBlank = t₂.isBlank ∧ t₁.line = t₂.line ∧ (t₁.isBlank = false → t₁.endLine = t₂.endLine)
  distance : ∀ (i : Nat) (t₁ t₂ : Token), l₁.document.tokens[i]? = some t₁ →
    l₂.document.tokens[i]? = some t₂ → l₁.distance? t₁ = l₂.distance? t₂
  root : l₁.graph.root = l₂.graph.root
  entries : l₁.graph.entries = l₂.graph.entries
  base : ∀ (i : Nat) (e : OffsetEntry), l₁.graph.entries[i]? = some (some e) →
    Significant l₁.document.tokens e.base
  margin : ∀ (i : Nat) (h₁ h₂ : Token), l₁.document.tokens[i]? = some h₁ →
    l₂.document.tokens[i]? = some h₂ → l₁.graph.heads.isHead h₁ = true →
      l₁.isChecked h₁ = .ok false → l₂.isChecked h₂ = .ok false →
        l₁.document.leadingText? h₁ = l₂.document.leadingText? h₂

/-! ## Telling whether documents are alike -/

section Decide

deriving instance DecidableEq for Heads

instance (tokens : Array Token) (i : Nat) : Decidable (Significant tokens i) :=
  decidable_of_iff (((tokens[i]?).any fun t => !t.isBlank) = true) (by
    simp [Significant, Option.any_eq_true])

instance (tokens : Array Token) : Decidable (Indexed tokens) :=
  decidable_of_iff (∀ p ∈ tokens.toList.zipIdx, p.1.index = p.2) (by
    constructor
    · intro h i t ht
      exact h (t, i) (List.mem_zipIdx_iff_getElem?.mpr (by simpa using ht))
    · intro h p hp
      exact h p.2 p.1 (by simpa using List.mem_zipIdx_iff_getElem?.mp hp))

/-- What holds of the tokens of each index holds of the pairs of tokens. -/
theorem forall_zip_iff {a b : Array Token} {P : Token → Token → Prop} :
    (∀ p ∈ a.toList.zip b.toList, P p.1 p.2) ↔
      ∀ (i : Nat) (t₁ t₂ : Token), a[i]? = some t₁ → b[i]? = some t₂ → P t₁ t₂ := by
  constructor
  · intro h i t₁ t₂ h₁ h₂
    refine h (t₁, t₂) (List.mem_iff_getElem?.mpr ⟨i, List.getElem?_zip_eq_some.mpr ⟨?_, ?_⟩⟩)
    · simpa using h₁
    · simpa using h₂
  · intro h p hp
    obtain ⟨i, hi⟩ := List.mem_iff_getElem?.mp hp
    obtain ⟨h₁, h₂⟩ := List.getElem?_zip_eq_some.mp hi
    exact h i _ _ (by simpa using h₁) (by simpa using h₂)

instance (a b : Array Token) (P : Token → Token → Prop) [∀ t₁ t₂, Decidable (P t₁ t₂)] :
    Decidable (∀ (i : Nat) (t₁ t₂ : Token), a[i]? = some t₁ → b[i]? = some t₂ → P t₁ t₂) :=
  decidable_of_iff _ forall_zip_iff

instance (entries : Array (Option OffsetEntry)) (P : OffsetEntry → Prop)
    [∀ e, Decidable (P e)] :
    Decidable (∀ (i : Nat) (e : OffsetEntry), entries[i]? = some (some e) → P e) :=
  decidable_of_iff (∀ entry ∈ entries, ∀ e ∈ entry, P e) (by
    simp only [Array.mem_iff_getElem?, Option.mem_def]
    constructor
    · intro h i e he
      exact h _ ⟨i, he⟩ e rfl
    · rintro h _ ⟨i, hi⟩ e rfl
      exact h i e hi)

set_option synthInstance.maxSize 400 in
instance (l₁ l₂ : Layout) : Decidable (l₁.Alike l₂) :=
  decidable_of_iff
    (l₁.unit = l₂.unit ∧ l₁.graph.heads = .ofTokens l₁.document.tokens ∧
      l₂.graph.heads = .ofTokens l₂.document.tokens ∧ Indexed l₁.document.tokens ∧
      Indexed l₂.document.tokens ∧ l₁.document.tokens.size = l₂.document.tokens.size ∧
      (∀ (i : Nat) (t₁ t₂ : Token), l₁.document.tokens[i]? = some t₁ →
        l₂.document.tokens[i]? = some t₂ →
          t₁.isBlank = t₂.isBlank ∧ t₁.line = t₂.line ∧
            (t₁.isBlank = false → t₁.endLine = t₂.endLine)) ∧
      (∀ (i : Nat) (t₁ t₂ : Token), l₁.document.tokens[i]? = some t₁ →
        l₂.document.tokens[i]? = some t₂ → l₁.distance? t₁ = l₂.distance? t₂) ∧
      l₁.graph.root = l₂.graph.root ∧ l₁.graph.entries = l₂.graph.entries ∧
      (∀ (i : Nat) (e : OffsetEntry), l₁.graph.entries[i]? = some (some e) →
        Significant l₁.document.tokens e.base) ∧
      ∀ (i : Nat) (h₁ h₂ : Token), l₁.document.tokens[i]? = some h₁ →
        l₂.document.tokens[i]? = some h₂ → l₁.graph.heads.isHead h₁ = true →
          l₁.isChecked h₁ = .ok false → l₂.isChecked h₂ = .ok false →
            l₁.document.leadingText? h₁ = l₂.document.leadingText? h₂)
    ⟨fun ⟨h1, h2, h3, h4, h5, h6, h7, h8, h9, h10, h11, h12⟩ =>
      ⟨h1, h2, h3, h4, h5, h6, h7, h8, h9, h10, h11, h12⟩,
    fun h => ⟨h.unit, h.heads₁, h.heads₂, h.indexed₁, h.indexed₂, h.size, h.token, h.distance,
      h.root, h.entries, h.base, h.margin⟩⟩

end Decide

/-! ## What documents that are alike have in common -/

section Alike

variable {l₁ l₂ : Layout} (h : l₁.Alike l₂)
include h

/-- The tokens of documents that are alike stand on the same lines. -/
theorem Alike.matched : Matched SameLines 0 l₁.document.tokens l₂.document.tokens where
  size := h.size
  token i t₂ ht₂ := by
    have hi := (Array.getElem?_eq_some_iff.mp ht₂).1
    rw [← h.size] at hi
    obtain ⟨h1, h2, h3⟩ := h.token i _ t₂ (Array.getElem?_eq_getElem hi) ht₂
    exact ⟨_, Array.getElem?_eq_getElem hi, h1, h2, h3⟩

theorem Alike.leads (i : Nat) :
    Leads l₁.document.tokens.toList i ↔ Leads l₂.document.tokens.toList i :=
  leads_matched h.matched (fun j _ hj => absurd hj (Nat.not_lt_zero j)) i

theorem Alike.twin : Twin 0 l₁ l₂ where
  unit := h.unit
  heads₁ := h.heads₁
  heads₂ := h.heads₂
  indexed₁ := h.indexed₁
  indexed₂ := h.indexed₂
  root i := by rw [h.root, Nat.add_zero]
  entry i := by
    have : OffsetEntry.moved 0 = id := rfl
    rw [h.entries, this, Option.map_id_fun, Option.map_id_fun]
    rfl
  base i e he := by
    rw [← h.entries] at he
    obtain ⟨base₁, h₁, hb⟩ := h.base i e he
    obtain ⟨base₂, h₂, hsame⟩ := h.matched.of_first h₁
    exact ⟨base₁, base₂, ⟨h₁, h₂⟩, hb, hsame.blank ▸ hb⟩
  leads := h.leads
  line i g t₁ t₂ h₁ h₂ ht hg _ := by
    rw [(h.token _ _ _ ht.first ht.second).2.1, (h.token _ _ _ hg.first hg.second).2.1]
  column _ e g t₁ t₂ h₁ h₂ _ _ ht hg hgov hb hline := by
    have hline₁ : h₁.line = t₁.line := by
      rw [(h.token _ _ _ ht.first ht.second).2.1, (h.token _ _ _ hg.first hg.second).2.1, hline]
    have hb₁ : t₁.isBlank = false := by rw [(h.token _ _ _ ht.first ht.second).1, hb]
    obtain ⟨g₁, u₁, h1, h2, hgov₁⟩ := headOf_spec h.indexed₁ ht.first hb₁
    obtain ⟨g₂, u₂, h3, h4, hgov₂⟩ := headOf_spec h.indexed₂ ht.second hb
    obtain rfl := hgov₂.eq hgov
    have hgov' : Governs l₁.document.tokens.toList g₂ e.base :=
      ⟨(h.leads g₂).mpr hgov.leads, hgov.le, fun j hj hji hlead => hgov.last j hj hji
        ((h.leads j).mp hlead)⟩
    obtain rfl := hgov₁.eq hgov'
    have hu₁ : u₁ = h₁ := Option.some.inj (h2.symm.trans hg.first)
    have hu₂ : u₂ = h₂ := Option.some.inj (h4.symm.trans hg.second)
    subst hu₁ hu₂
    have hdist := h.distance e.base t₁ t₂ ht.first ht.second
    simp only [distance?, h.heads₁, h.heads₂, h1, h3, if_pos hline₁, if_pos hline] at hdist
    exact Option.some.inj hdist
  margin g h₁ h₂ hg hlead hc₁ hc₂ := by
    have hhead : l₁.graph.heads.isHead h₁ = true := by
      rw [h.heads₁]
      exact (isHead_iff h.indexed₁ hg.first).mpr ((h.leads g).mpr hlead)
    simp only [Layout.leadingText, h.margin g h₁ h₂ hg.first hg.second hhead hc₁ hc₂]

end Alike

/-- **Expected indentation does not depend on the margins of checked lines.** Two documents that
are alike have the same checked lines, and the head of each line is resolved to the same
indentation in both, or runs into the same cycle. -/
theorem expected_of_alike {l₁ l₂ : Layout} (h : l₁.Alike l₂) {i : Nat} {t₁ t₂ : Token}
    (h₁ : l₁.document.tokens[i]? = some t₁) (h₂ : l₂.document.tokens[i]? = some t₂)
    (hhead : l₁.graph.heads.isHead t₁ = true) (memo : Memo) :
    l₁.isChecked t₁ = l₂.isChecked t₂ ∧ l₁.resolve memo t₁ = l₂.resolve memo t₂ := by
  have ht : Partners 0 l₁ l₂ i t₁ t₂ := ⟨h₁, h₂⟩
  rw [h.heads₁, isHead_iff h.indexed₁ h₁] at hhead
  exact ⟨isChecked_twin h.twin ht,
    resolveFrom_twin h.twin ht ((h.leads i).mp hhead) memo []⟩

/-- The layout of a text by settings that are left as they are. -/
def ofText? (text : String) : Option Layout :=
  match Document.read text.toList with
  | .ok d => (Layout.ofSettings d {} .default).toOption
  | .error _ => none

theorem expected_of_alike_ragged :
    ∃ (l₁ l₂ : Layout) (t₁ t₂ : Token),
      ofText? "<ul>\n<li\nid=1>\n\x7b f(\na) \x7d\n</li>\n</ul>" = some l₁ ∧
      ofText? "<ul>\n      <li\n id=1>\n  \x7b f(\n\ta) \x7d\n   </li>\n</ul>" = some l₂ ∧
      l₁.Alike l₂ ∧ l₁.document.tokens[14]? = some t₁ ∧ l₂.document.tokens[14]? = some t₂ ∧
      l₁.graph.heads.isHead t₁ = true ∧ l₁.leadingText t₁ ≠ l₂.leadingText t₂ ∧
      l₁.isChecked t₁ = l₂.isChecked t₂ ∧ l₁.resolve [] t₁ = l₂.resolve [] t₂ := by
  let l₁ : Layout := (ofText? "<ul>\n<li\nid=1>\n\x7b f(\na) \x7d\n</li>\n</ul>").get
    (by decide +kernel)
  let l₂ : Layout := (ofText?
    "<ul>\n      <li\n id=1>\n  \x7b f(\n\ta) \x7d\n   </li>\n</ul>").get (by decide +kernel)
  let t₁ : Token := (l₁.document.tokens[14]?).get (by decide +kernel)
  let t₂ : Token := (l₂.document.tokens[14]?).get (by decide +kernel)
  have h : l₁.Alike l₂ := by decide +kernel
  have h₁ : l₁.document.tokens[14]? = some t₁ := (Option.some_get _).symm
  have h₂ : l₂.document.tokens[14]? = some t₂ := (Option.some_get _).symm
  have hhead : l₁.graph.heads.isHead t₁ = true := by decide +kernel
  exact ⟨l₁, l₂, t₁, t₂, (Option.some_get _).symm, (Option.some_get _).symm, h, h₁, h₂, hhead,
    by decide +kernel, expected_of_alike h h₁ h₂ hhead []⟩

end Layout

end MarkupIndent.Margin
