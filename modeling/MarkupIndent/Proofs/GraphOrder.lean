import MarkupIndent.Margin.Rules
import MarkupIndent.Proofs.LineHeads

/-!
# The offset graph descends

Declarations are written over each other, and yet no chain of entries can come back to where it
began: whatever is declared last for a token, its base is a token before it, or the token is pinned
to itself. It is enough that every single declaration is of this form, since carrying one out keeps
the graph so.

* `Hangs`, `Declaration.Descends`: the base comes before the target.
* `OffsetGraph.Ordered`: a graph of such entries, with its root.
* `ordered_applyAll`: carrying out declarations that descend succeeds and gives such a graph.
-/

namespace MarkupIndent.Margin

open Markup Text

/-! ## Entries and declarations that descend -/

/-- A token hangs on a token before it, or is pinned to itself, by a rule that makes sense. -/
structure Hangs (tokens : Array Token) (target base : Nat) (kind : OffsetKind) (weight : Int) :
    Prop where
  onTarget : Significant tokens target
  onBase : Significant tokens base
  known : ∀ label, kind ≠ .unknown label
  nonneg : 0 ≤ weight
  pinned : kind = .pinned → base = target
  lt : kind ≠ .pinned → base < target

/-- Whatever a declaration does, it hangs tokens on tokens before them or pins them. -/
def Declaration.Descends (tokens : Array Token) : Declaration → Prop
  | .offset target base kind weight => Hangs tokens target base kind weight
  | .range first _ base kind weight => base < first ∧ Significant tokens base ∧
      (∀ label, kind ≠ .unknown label) ∧ kind ≠ .pinned ∧ 0 ≤ weight
  | .pin _ _ => True
  | .request .. | .refuse _ => False

/-- The entries of a graph of the tokens descend, and its root has none. -/
structure OffsetGraph.Ordered (tokens : Array Token) (root : Nat) (g : OffsetGraph) : Prop where
  heads : g.heads = .ofTokens tokens
  size : g.entries.size = tokens.size
  hasRoot : g.root = some root
  unhung : g.entries[root]? = some none
  entry : ∀ (i : Nat) (e : OffsetEntry), g.entries[i]? = some (some e) →
    e.target = i ∧ Hangs tokens i e.base e.kind e.weight

/-- Every token with an entry in one graph has one in the other. -/
def OffsetGraph.Refines (g g' : OffsetGraph) : Prop :=
  ∀ (i : Nat) (e : OffsetEntry), g.entries[i]? = some (some e) →
    ∃ e', g'.entries[i]? = some (some e')

theorem OffsetGraph.Refines.trans {g g' g'' : OffsetGraph} (h : g.Refines g') (h' : g'.Refines g'') :
    g.Refines g'' := by
  intro i e he
  obtain ⟨e', he'⟩ := h i e he
  exact h' i e' he'

theorem significant_of_marked {tokens : Array Token} {first stop i : Nat}
    (h : Marked tokens first stop) (h1 : first ≤ i) (h2 : i < stop) : Significant tokens i := by
  obtain ⟨t, ht, hk⟩ := h i h1 h2
  exact ⟨t, ht, by simp [Token.isBlank, hk]⟩

/-! ## Carrying out declarations -/

namespace OffsetGraph

variable {tokens : Array Token} {root : Nat} {g : OffsetGraph}

theorem checkRule_ok {kind : OffsetKind} {weight : Int} (hk : ∀ label, kind ≠ .unknown label)
    (hw : 0 ≤ weight) : checkRule kind weight = .ok () := by
  have hneg : ¬ weight < 0 := by omega
  cases kind with
  | unknown label => exact absurd rfl (hk label)
  | relative | same | align | pinned => simp [checkRule, hneg]

theorem Ordered.ownIndex_ok (h : g.Ordered tokens root) {i : Nat} (hi : i < tokens.size) :
    g.ownIndex (.own i) = .ok i := by
  have : i < g.heads.size := by rw [h.heads]; exact hi
  simp [ownIndex, this]

/-- **One declaration keeps the order**, and the token that it speaks of hangs on something. -/
theorem ordered_declare (h : g.Ordered tokens root) {target base : Nat} {kind : OffsetKind}
    {weight : Int} (hd : Hangs tokens target base kind weight) :
    ∃ g', g.declare (.own target) (.own base) kind weight = .ok g' ∧ g'.Ordered tokens root ∧
      g.Refines g' ∧ (target ≠ root → ∃ e, g'.entries[target]? = some (some e)) := by
  have ht := hd.onTarget.lt
  simp only [declare, checkRule_ok hd.known hd.nonneg, h.ownIndex_ok ht,
    h.ownIndex_ok hd.onBase.lt, h.hasRoot, bind, Except.bind]
  split
  · next hr =>
    exact ⟨g, rfl, h, fun i e he => ⟨e, he⟩, fun hne => absurd (Option.some.inj hr).symm hne⟩
  · next hr =>
    have hne : target ≠ root := fun e => hr (congrArg some e.symm)
    have hset : target < g.entries.size := by rw [h.size]; exact ht
    refine ⟨_, rfl, ⟨h.heads, ?_, rfl, ?_, ?_⟩, ?_,
      fun _ => ⟨_, Array.getElem?_setIfInBounds_self_of_lt hset⟩⟩
    · simp [h.size]
    · simp only [Array.getElem?_setIfInBounds_ne hne, h.unhung]
    · intro i e he
      by_cases hi : target = i
      · subst hi
        simp only [Array.getElem?_setIfInBounds_self_of_lt hset] at he
        cases he
        refine ⟨rfl, hd.onTarget, hd.onBase, hd.known, ?_, hd.pinned, hd.lt⟩
        have := hd.nonneg
        simp only
        split <;> omega
      · simp only [Array.getElem?_setIfInBounds_ne hi] at he
        exact h.entry i e he
    · intro i e he
      by_cases hi : target = i
      · subst hi
        exact ⟨_, Array.getElem?_setIfInBounds_self_of_lt hset⟩
      · exact ⟨e, by simpa only [Array.getElem?_setIfInBounds_ne hi] using he⟩

/-- A sequence of steps that each keep the order keeps it. -/
theorem ordered_fold {α : Type} {f : OffsetGraph → α → Except Fault OffsetGraph} {xs : List α}
    (hf : ∀ (g : OffsetGraph) (x : α), g.Ordered tokens root → x ∈ xs →
      ∃ g', f g x = .ok g' ∧ g'.Ordered tokens root ∧ g.Refines g')
    (h : g.Ordered tokens root) :
    ∃ g', xs.foldlM f g = .ok g' ∧ g'.Ordered tokens root ∧ g.Refines g' := by
  induction xs generalizing g with
  | nil => exact ⟨g, rfl, h, fun i e he => ⟨e, he⟩⟩
  | cons x rest ih =>
    obtain ⟨g1, h1, h2, h3⟩ := hf g x h (by simp)
    obtain ⟨g2, h4, h5, h6⟩ := ih (fun g y hg hy => hf g y hg (by simp [hy])) h2
    exact ⟨g2, by simp only [List.foldlM_cons, h1, bind, Except.bind, h4], h5, h3.trans h6⟩

end OffsetGraph

theorem mem_between {tokens : Array Token} {first last : Int} {t : Token} :
    t ∈ (Heads.ofTokens tokens).between first last ↔
      ∃ i, first.toNat ≤ i ∧ i < (last + 1).toNat ∧ tokens[i]? = some t ∧ t.isBlank = false := by
  simp only [Heads.between, Heads.ofTokens, Array.mem_toList_iff, Array.mem_filter,
    Token.isSignificant, Bool.not_eq_true']
  constructor
  · rintro ⟨hm, hb⟩
    obtain ⟨k, hk⟩ := Array.mem_iff_getElem?.mp hm
    rw [Array.getElem?_extract] at hk
    split at hk
    · next hlt => exact ⟨first.toNat + k, by omega, by omega, hk, hb⟩
    · cases hk
  · rintro ⟨i, h1, h2, hi, hb⟩
    refine ⟨Array.mem_iff_getElem?.mpr ⟨i - first.toNat, ?_⟩, hb⟩
    have hlt := (Array.getElem?_eq_some_iff.mp hi).1
    rw [Array.getElem?_extract, if_pos (by omega), show first.toNat + (i - first.toNat) = i by omega,
      hi]

namespace OffsetGraph

variable {tokens : Array Token} {root : Nat} {g : OffsetGraph}

theorem ordered_declareRange (hx : Indexed tokens) (h : g.Ordered tokens root) {first last base : Nat}
    {kind : OffsetKind} {weight : Int}
    (hd : (Declaration.range first last base kind weight).Descends tokens) :
    ∃ g', g.declareRange first last (.own base) kind weight = .ok g' ∧ g'.Ordered tokens root ∧
      g.Refines g' := by
  obtain ⟨h1, h2, h3, h4, h5⟩ := hd
  refine ordered_fold (fun g t hg ht => ?_) h
  rw [h.heads, mem_between] at ht
  obtain ⟨i, hi1, hi2, hi, hb⟩ := ht
  rw [hx i t hi]
  have hbi : i ≠ base := by omega
  obtain ⟨g', hg1, hg2, hg3, -⟩ := ordered_declare hg
    ⟨⟨t, hi, hb⟩, h2, h3, h5, fun hp => absurd hp h4, fun _ => by omega⟩
  exact ⟨g', (if_neg hbi).trans hg1, hg2, hg3⟩

theorem ordered_pin (hx : Indexed tokens) (h : g.Ordered tokens root) (first last : Int) :
    ∃ g', g.pin first last = .ok g' ∧ g'.Ordered tokens root ∧ g.Refines g' := by
  refine ordered_fold (fun g t hg ht => ?_) h
  rw [h.heads, mem_between] at ht
  obtain ⟨i, hi1, hi2, hi, hb⟩ := ht
  rw [hx i t hi]
  obtain ⟨g', hg1, hg2, hg3, -⟩ := ordered_declare hg
    ⟨⟨t, hi, hb⟩, ⟨t, hi, hb⟩, by simp, Int.le_refl 0, fun _ => rfl, fun hp => absurd rfl hp⟩
  exact ⟨g', hg1, hg2, hg3⟩

theorem ordered_apply (hx : Indexed tokens) (h : g.Ordered tokens root) {d : Declaration}
    (hd : d.Descends tokens) :
    ∃ g', g.apply d = .ok g' ∧ g'.Ordered tokens root ∧ g.Refines g' := by
  cases d with
  | offset target base kind weight =>
    obtain ⟨g', h1, h2, h3, -⟩ := ordered_declare h hd
    exact ⟨g', h1, h2, h3⟩
  | range first last base kind weight => exact ordered_declareRange hx h hd
  | pin first last => exact ordered_pin hx h first last
  | request => exact hd.elim
  | refuse => exact hd.elim

/-- **Declarations that descend can be carried out**, and the graph descends after them. -/
theorem ordered_applyAll (hx : Indexed tokens) (h : g.Ordered tokens root) {ds : List Declaration}
    (hd : ∀ d ∈ ds, d.Descends tokens) :
    ∃ g', g.applyAll ds = .ok g' ∧ g'.Ordered tokens root ∧ g.Refines g' :=
  ordered_fold (fun _ d hg hm => ordered_apply hx hg (hd d hm)) h

/-- After a range is declared, each of its tokens hangs on something, the root and the base
apart. -/
theorem covers_declareRange (hx : Indexed tokens) (h : g.Ordered tokens root)
    {first last base : Nat} {kind : OffsetKind} {weight : Int}
    (hd : (Declaration.range first last base kind weight).Descends tokens) {g' : OffsetGraph}
    (hg : g.declareRange first last (.own base) kind weight = .ok g') {i : Nat} (h1 : first ≤ i)
    (h2 : i ≤ last) (hr : i ≠ root) (hi : Significant tokens i) :
    ∃ e, g'.entries[i]? = some (some e) := by
  obtain ⟨t, ht, hb⟩ := hi
  have hmem : t ∈ g.heads.between first last := by
    rw [h.heads, mem_between]
    exact ⟨i, by omega, by omega, ht, hb⟩
  have hin : ∀ u ∈ g.heads.between first last, ∃ j, first ≤ j ∧ tokens[j]? = some u ∧
      u.isBlank = false := by
    intro u hu
    rw [h.heads, mem_between] at hu
    obtain ⟨j, hj1, -, hj, hjb⟩ := hu
    exact ⟨j, by omega, hj, hjb⟩
  obtain ⟨d1, d2, d3, d4, d5⟩ := hd
  have step : ∀ (k : OffsetGraph) (u : Token), k.Ordered tokens root →
      u ∈ g.heads.between first last → ∃ k', (if u.index = (TokenRef.own base).index then .ok k
        else k.declare (.own u.index) (.own base) kind weight) = .ok k' ∧
        k'.Ordered tokens root ∧ k.Refines k' ∧
        (u.index ≠ root → ∃ e, k'.entries[u.index]? = some (some e)) := by
    intro k u hk hu
    obtain ⟨j, hj1, hj, hjb⟩ := hin u hu
    rw [hx j u hj, if_neg (by simp only [TokenRef.index]; omega)]
    exact ordered_declare hk ⟨⟨u, hj, hjb⟩, d2, d3, d5, fun hp => absurd hp d4, fun _ => by omega⟩
  unfold declareRange declareEach at hg
  generalize g.heads.between first last = targets at *
  clear hin
  induction targets generalizing g with
  | nil => simp at hmem
  | cons u rest ih =>
    obtain ⟨k, hk1, hk2, hk3, hk4⟩ := step g u h (by simp)
    rw [List.foldlM_cons, hk1] at hg
    rcases List.mem_cons.mp hmem with rfl | hmem
    · rw [hx i t ht] at hk4
      obtain ⟨e, he⟩ := hk4 hr
      obtain ⟨k', hk'1, -, hk'3⟩ := ordered_fold (fun m v hm (hv : v ∈ rest) => by
        obtain ⟨m', hm1, hm2, hm3, -⟩ := step m v hm (List.mem_cons_of_mem t hv)
        exact ⟨m', hm1, hm2, hm3⟩) hk2
      have : k' = g' := by
        have := hk'1.symm.trans hg
        cases this
        rfl
      exact this ▸ hk'3 i e he
    · exact ih hk2 hg hmem fun m v hm hv => step m v hm (by simp [hv])

end OffsetGraph

end MarkupIndent.Margin
