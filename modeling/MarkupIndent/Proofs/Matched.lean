import Mathlib.Data.List.Forall2
import MarkupIndent.Markup.Token

/-!
# Token sequences side by side

Two sequences of tokens that are related one by one, where the first may have some more tokens at
its beginning. Whatever is looked up by index in both, or searched for in the same range of both,
is related again.

* `Matched`: the relation; `matched_extract`: what it is to leave the first tokens out.
* `Matched.related`, `Matched.cases`, `Matched.extract`: tokens of an index and of a range.
* `find?_forall₂`, `filter_forall₂`, `map_forall₂`: the first that meets a condition, of two lists
  side by side, all that do, and what they are mapped to.
-/

namespace MarkupIndent.Markup

/-- The tokens of the first sequence after the first `k` are related to those of the second. -/
structure Matched (R : Token → Token → Prop) (k : Nat) (ts ts' : Array Token) : Prop where
  size : ts.size = ts'.size + k
  token : ∀ (i : Nat) (t' : Token), ts'[i]? = some t' → ∃ t, ts[i + k]? = some t ∧ R t t'

theorem Matched.mono {R S : Token → Token → Prop} {k : Nat} {ts ts' : Array Token}
    (h : Matched R k ts ts')
    (hS : ∀ (i : Nat) (t t' : Token), ts[i + k]? = some t → R t t' → S t t') : Matched S k ts ts' :=
  ⟨h.size, fun i t' ht' => (h.token i t' ht').imp fun t ht => ⟨ht.1, hS i t t' ht.1 ht.2⟩⟩

/-- The tokens of an index after the first `k`. -/
theorem getElem?_extract_from (ts : Array Token) (k i : Nat) : (ts.extract k)[i]? = ts[i + k]? := by
  rw [Array.getElem?_extract, Nat.add_comm k i]
  split
  · rfl
  · exact (Array.getElem?_eq_none_iff.mpr (by omega)).symm

/-- A sequence is related to what is left of it without its first `k` tokens. -/
theorem matched_extract {R : Token → Token → Prop} (hR : ∀ t, R t t) {k : Nat} {ts : Array Token}
    (hk : k ≤ ts.size) : Matched R k ts (ts.extract k) := by
  refine ⟨by rw [Array.size_extract]; omega, fun i t' ht' => ⟨t', ?_, hR t'⟩⟩
  rwa [getElem?_extract_from] at ht'

namespace Matched

variable {R : Token → Token → Prop} {k : Nat} {ts ts' : Array Token} (h : Matched R k ts ts')
include h

/-- The tokens of one place are related. -/
theorem related {i : Nat} {t t' : Token} (ht : ts[i + k]? = some t) (ht' : ts'[i]? = some t') :
    R t t' := by
  obtain ⟨u, hu, hr⟩ := h.token i t' ht'
  rw [ht] at hu
  rwa [Option.some.inj hu]

theorem of_first {i : Nat} {t : Token} (ht : ts[i + k]? = some t) :
    ∃ t', ts'[i]? = some t' ∧ R t t' := by
  have hi := (Array.getElem?_eq_some_iff.mp ht).1
  have hs := h.size
  have hi' : i < ts'.size := by omega
  exact ⟨_, Array.getElem?_eq_getElem hi', h.related ht (Array.getElem?_eq_getElem hi')⟩

/-- An index has a token in both or in neither. -/
theorem cases (i : Nat) : (ts[i + k]? = none ∧ ts'[i]? = none) ∨
    ∃ t t', ts[i + k]? = some t ∧ ts'[i]? = some t' ∧ R t t' := by
  cases ht' : ts'[i]? with
  | none =>
    left
    have := Array.getElem?_eq_none_iff.mp ht'
    have hs := h.size
    exact ⟨Array.getElem?_eq_none_iff.mpr (by omega), rfl⟩
  | some t' =>
    obtain ⟨t, ht, hr⟩ := h.token i t' ht'
    exact .inr ⟨t, t', ht, rfl, hr⟩

theorem drop : List.Forall₂ R (ts.toList.drop k) ts'.toList := by
  have hs := h.size
  rw [List.forall₂_iff_get]
  refine ⟨by simp [hs], fun i h1 h2 => ?_⟩
  have hi : i < ts'.size := by simpa using h2
  obtain ⟨t, ht, hr⟩ := h.token i _ (Array.getElem?_eq_getElem hi)
  obtain ⟨hi', rfl⟩ := Array.getElem?_eq_some_iff.mp ht
  simpa [Nat.add_comm k i] using hr

/-- The tokens of a range are related one by one. -/
theorem extract (lo hi : Nat) :
    List.Forall₂ R (ts.extract (lo + k) (hi + k)).toList (ts'.extract lo hi).toList := by
  have := List.forall₂_take (hi - lo) (List.forall₂_drop lo h.drop)
  rw [List.drop_drop] at this
  rw [Array.toList_extract, Array.toList_extract, List.extract_eq_take_drop,
    List.extract_eq_take_drop, Nat.add_sub_add_right, Nat.add_comm lo k]
  exact this

end Matched

/-- A search through two lists side by side finds a pair, or nothing in both. -/
theorem find?_forall₂ {α β : Type} {R : α → β → Prop} {p : α → Bool} {q : β → Bool} {xs : List α}
    {ys : List β} (h : List.Forall₂ R xs ys) (hpq : ∀ x y, R x y → p x = q y) :
    (xs.find? p = none ∧ ys.find? q = none) ∨
      ∃ x y, xs.find? p = some x ∧ ys.find? q = some y ∧ R x y := by
  induction h with
  | nil => exact .inl ⟨rfl, rfl⟩
  | @cons x y xs ys hxy _ ih =>
    rw [List.find?_cons, List.find?_cons, hpq x y hxy]
    cases q y with
    | true => exact .inr ⟨x, y, rfl, rfl, hxy⟩
    | false => exact ih

/-- What meets a condition in two lists side by side. -/
theorem filter_forall₂ {α β : Type} {R : α → β → Prop} {p : α → Bool} {q : β → Bool} {xs : List α}
    {ys : List β} (h : List.Forall₂ R xs ys) (hpq : ∀ x y, R x y → p x = q y) :
    List.Forall₂ (fun x y => R x y ∧ p x = true) (xs.filter p) (ys.filter q) := by
  induction h with
  | nil => exact .nil
  | @cons x y xs ys hxy _ ih =>
    rw [List.filter_cons, List.filter_cons, ← hpq x y hxy]
    split
    · next hx => exact .cons ⟨hxy, hx⟩ ih
    · exact ih

/-- What two lists side by side are mapped to. -/
theorem map_forall₂ {α β γ : Type} {R : α → β → Prop} {f : α → γ} {g : β → γ} {xs : List α}
    {ys : List β} (h : List.Forall₂ R xs ys) (hfg : ∀ x y, R x y → f x = g y) :
    xs.map f = ys.map g := by
  induction h with
  | nil => rfl
  | cons hxy _ ih => rw [List.map_cons, List.map_cons, hfg _ _ hxy, ih]

end MarkupIndent.Markup
