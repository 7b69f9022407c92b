import MarkupIndent.Margin.Rules
import MarkupIndent.Proofs.Twins

/-!
# Graphs over more tokens

A sequence of tokens and the same sequence after `k` more tokens: declarations for the one are
those for the other with every index moved, and carrying them out gives the same graph but for
the indices.

* `Declaration.moved`: a declaration after more tokens.
* `OffsetGraph.Shifted`: graphs of each other.
* `declare_shifted`, `apply_shifted`: one declaration keeps graphs of each other so.
* `applyAll_shifted`: so do declarations in turn.
-/

namespace MarkupIndent.Margin

open Markup Text

/-! ## Declarations after more tokens -/

/-- The token of a reference after `k` more tokens. -/
def TokenRef.moved (k : Nat) : TokenRef → TokenRef
  | .own index => .own (index + k)
  | .foreign token => .foreign token

/-- The declaration after `k` more tokens. -/
def Declaration.moved (k : Nat) : Declaration → Declaration
  | .offset target base kind weight => .offset (target + k) (base + k) kind weight
  | .range first last base kind weight => .range (first + k) (last + k) (base + k) kind weight
  | .pin first last => .pin (first + k) (last + k)
  | .request target base kind weight => .request (target.moved k) (base.moved k) kind weight
  | .refuse fault => .refuse fault

/-- The declarations of several things after more tokens. -/
theorem flatMap_moved {α β : Type} {k : Nat} {f : α → List Declaration} {g : β → List Declaration}
    {move : β → α} {xs : List β} (hfg : ∀ x ∈ xs, f (move x) = (g x).map (Declaration.moved k)) :
    (xs.map move).flatMap f = (xs.flatMap g).map (Declaration.moved k) := by
  induction xs with
  | nil => rfl
  | cons x xs ih =>
    rw [List.map_cons, List.flatMap_cons, List.flatMap_cons, List.map_append,
      hfg x List.mem_cons_self, ih fun y hy => hfg y (List.mem_cons_of_mem x hy)]

/-- Two folds whose steps go together go together. -/
theorem foldlM_forall₂ {ε σ τ α β : Type} {S : σ → τ → Prop} {R : α → β → Prop}
    {f : σ → α → Except ε σ} {g : τ → β → Except ε τ} {xs : List α} {ys : List β}
    (hstep : ∀ s t x y u, S s t → R x y → f s x = .ok u → ∃ v, g t y = .ok v ∧ S u v)
    (h : List.Forall₂ R xs ys) {s u : σ} {t : τ} (hs : S s t) (hu : xs.foldlM f s = .ok u) :
    ∃ v, ys.foldlM g t = .ok v ∧ S u v := by
  induction h generalizing s t with
  | nil =>
    cases hu
    exact ⟨t, rfl, hs⟩
  | cons hxy _ ih =>
    rw [List.foldlM_cons] at hu
    obtain ⟨s', h1, h2⟩ := bind_eq_ok.mp hu
    obtain ⟨t', h3, h4⟩ := hstep _ _ _ _ _ hs hxy h1
    obtain ⟨v, h5, h6⟩ := ih h4 h2
    exact ⟨v, by rw [List.foldlM_cons]; exact bind_eq_ok.mpr ⟨t', h3, h5⟩, h6⟩

/-! ## Tokens side by side -/

/-- Tokens that stand at places of each other in two sequences. -/
def Facing (k : Nat) (ts ts' : Array Token) (t t' : Token) : Prop :=
  ∃ i : Nat, ts[i + k]? = some t ∧ ts'[i]? = some t'

theorem between_eq (ts : Array Token) (first last : Nat) :
    (Heads.ofTokens ts).between first last =
      (ts.extract first (last + 1)).toList.filter Token.isSignificant := by
  rw [Heads.between, Array.toList_filter]
  rfl

/-- In two sequences of the same tokens, significant tokens face each other. -/
theorem between_facing {R : Token → Token → Prop} {k : Nat} {ts ts' : Array Token}
    (h : Matched R k ts ts') (hR : ∀ t t', R t t' → t.isBlank = t'.isBlank) (first last : Nat) :
    List.Forall₂ (Facing k ts ts') ((Heads.ofTokens ts).between ↑(first + k) ↑(last + k))
      ((Heads.ofTokens ts').between first last) := by
  have hfacing : Matched (fun t t' => Facing k ts ts' t t' ∧ t.isBlank = t'.isBlank) k ts ts' := by
    refine ⟨h.size, fun i t' ht' => ?_⟩
    obtain ⟨t, ht, hr⟩ := h.token i t' ht'
    exact ⟨t, ht, ⟨i, ht, ht'⟩, hR t t' hr⟩
  have hext := hfacing.extract first (last + 1)
  rw [Nat.add_right_comm] at hext
  have hfilter := List.rel_filter (p := Token.isSignificant) (q := Token.isSignificant)
    (R := fun t t' => Facing k ts ts' t t' ∧ t.isBlank = t'.isBlank)
    (fun t t' htt' => by simp only [Token.isSignificant, htt'.2]) hext
  have hmap := hfilter.imp fun _ _ htt' => htt'.1
  rwa [between_eq, between_eq]

/-! ## Graphs -/

/-- Graphs over the same tokens, where the first has `k` more tokens before all others, with the
token `r` of the second as their root. -/
structure OffsetGraph.Shifted (k r : Nat) (ts ts' : Array Token) (g g' : OffsetGraph) : Prop where
  heads : g.heads = .ofTokens ts
  heads' : g'.heads = .ofTokens ts'
  size : g.entries.size = ts.size
  size' : g'.entries.size = ts'.size
  root : g.root = some (r + k)
  root' : g'.root = some r
  entry : ∀ i, g.entries[i + k]? = (g'.entries[i]?).map (Option.map (OffsetEntry.moved k))

namespace OffsetGraph

variable {R : Token → Token → Prop} {k r : Nat} {ts ts' : Array Token} (h : Matched R k ts ts')
  {g g' u : OffsetGraph} (hg : Shifted k r ts ts' g g')
include h hg

theorem ownIndex_shifted {ref : TokenRef} {i : Nat} (hi : g.ownIndex (ref.moved k) = .ok i) :
    ∃ i', g'.ownIndex ref = .ok i' ∧ i = i' + k := by
  have hsize := h.size
  cases ref with
  | foreign => cases hi
  | own index =>
    simp only [TokenRef.moved, ownIndex, hg.heads, Heads.size, Heads.ofTokens] at hi
    split at hi
    · cases hi
      refine ⟨index, ?_, rfl⟩
      simp only [ownIndex, hg.heads', Heads.size, Heads.ofTokens]
      rw [if_pos (by omega)]
    · cases hi

/-- **One declaration does the same to both.** -/
theorem declare_shifted (target base : TokenRef) {kind : OffsetKind} {weight : Int}
    (hu : g.declare (target.moved k) (base.moved k) kind weight = .ok u) :
    ∃ u', g'.declare target base kind weight = .ok u' ∧ Shifted k r ts ts' u u' := by
  obtain ⟨_, hrule, hu⟩ := bind_eq_ok.mp hu
  obtain ⟨t, ht, hu⟩ := bind_eq_ok.mp hu
  obtain ⟨b, hb, hu⟩ := bind_eq_ok.mp hu
  obtain ⟨t', ht', rfl⟩ := ownIndex_shifted h hg ht
  obtain ⟨b', hb', rfl⟩ := ownIndex_shifted h hg hb
  have hroot : g.root = some (t' + k) ↔ g'.root = some t' := by
    rw [hg.root, hg.root', Option.some.injEq, Option.some.injEq, Nat.add_right_cancel_iff]
  simp only [declare, hrule, ht', hb', bind, Except.bind]
  split at hu
  · next heq =>
    cases hu
    exact ⟨g', if_pos (hroot.mp heq), hg⟩
  · next hne =>
    cases hu
    refine ⟨_, if_neg (mt hroot.mpr hne), hg.heads, hg.heads', ?_, ?_, hg.root, hg.root',
      fun i => ?_⟩
    · simp only [Array.size_setIfInBounds, hg.size]
    · simp only [Array.size_setIfInBounds, hg.size']
    · have hsize := h.size
      have hs := hg.size
      have hs' := hg.size'
      rw [Array.getElem?_setIfInBounds, Array.getElem?_setIfInBounds]
      by_cases hi : t' = i
      · subst hi
        rw [if_pos rfl, if_pos rfl]
        by_cases hlt : t' < g'.entries.size
        · rw [if_pos hlt, if_pos (by omega)]
          rfl
        · rw [if_neg hlt, if_neg (by omega)]
          rfl
      · rw [if_neg hi, if_neg (by omega), hg.entry i]

section Tokens

variable (hR : ∀ t t', R t t' → t.isBlank = t'.isBlank) (hx : Indexed ts) (hx' : Indexed ts')

omit h hg in
include hx hx' in
theorem index_facing {t t' : Token} (htt' : Facing k ts ts' t t') : t.index = t'.index + k := by
  obtain ⟨i, ht, ht'⟩ := htt'
  rw [hx _ _ ht, hx' _ _ ht']

include hR hx hx'

theorem declareRange_shifted {first last base : Nat} {kind : OffsetKind} {weight : Int}
    (hu : g.declareRange ↑(first + k) ↑(last + k) (.own (base + k)) kind weight = .ok u) :
    ∃ u', g'.declareRange first last (.own base) kind weight = .ok u' ∧
      Shifted k r ts ts' u u' := by
  unfold declareRange declareEach at hu ⊢
  rw [hg.heads] at hu
  rw [hg.heads']
  refine foldlM_forall₂ (S := Shifted k r ts ts') ?_ (between_facing h hR first last) hg hu
  intro g g' t t' u hg htt' hu
  have hindex := index_facing hx hx' htt'
  simp only [TokenRef.index, hindex, Nat.add_right_cancel_iff] at hu ⊢
  split at hu
  · next heq =>
    cases hu
    exact ⟨g', if_pos heq, hg⟩
  · next hne =>
    obtain ⟨u', h1, h2⟩ := declare_shifted h hg (.own t'.index) (.own base) hu
    exact ⟨u', (if_neg hne).trans h1, h2⟩

theorem pin_shifted {first last : Nat} (hu : g.pin ↑(first + k) ↑(last + k) = .ok u) :
    ∃ u', g'.pin first last = .ok u' ∧ Shifted k r ts ts' u u' := by
  unfold pin at hu ⊢
  rw [hg.heads] at hu
  rw [hg.heads']
  refine foldlM_forall₂ (S := Shifted k r ts ts') ?_ (between_facing h hR first last) hg hu
  intro g g' t t' u hg htt' hu
  rw [index_facing hx hx' htt'] at hu
  exact declare_shifted h hg (.own t'.index) (.own t'.index) hu

theorem apply_shifted {e : Declaration} (hu : g.apply (e.moved k) = .ok u) :
    ∃ u', g'.apply e = .ok u' ∧ Shifted k r ts ts' u u' := by
  cases e with
  | offset target base => exact declare_shifted h hg (.own target) (.own base) hu
  | range => exact declareRange_shifted h hg hR hx hx' hu
  | pin => exact pin_shifted h hg hR hx hx' hu
  | request target base => exact declare_shifted h hg target base hu
  | refuse => cases hu

/-- **Declarations do the same to both**, one after the other. -/
theorem applyAll_shifted {ds : List Declaration}
    (hu : g.applyAll (ds.map (Declaration.moved k)) = .ok u) :
    ∃ u', g'.applyAll ds = .ok u' ∧ Shifted k r ts ts' u u' := by
  refine foldlM_forall₂ (S := Shifted k r ts ts') (R := fun e e' => e = e'.moved k) ?_ ?_ hg hu
  · rintro g g' _ e' u hg rfl hu
    exact apply_shifted h hg hR hx hx' hu
  · rw [List.forall₂_map_left_iff]
    exact List.forall₂_same.mpr fun _ _ => rfl

end Tokens

end OffsetGraph

end MarkupIndent.Margin
