import Mathlib.Algebra.BigOperators.Group.List.Basic
import Mathlib.Algebra.Ring.Int.Defs
import Mathlib.Data.List.Pairwise
import MarkupIndent.Margin.Edit

/-!
# Lists of edits

A list of edits can be carried out exactly if each of them lies in the text and no two of them
overlap. The order in which they are given matters only for edits that insert at the same place.

* `Edit.Within`, `Edit.Overlaps`, `Clash`: what keeps edits from being carried out.
* `Spliced`: a text with the stretches of some edits replaced, one after the other, and all that
  stands between them kept.
* `applyFrom_eq_ok_iff`: carrying out edits in turn splices them in.
* `exists_spliced`, `Spliced.inTurn`: edits can be spliced in if each begins where the one before
  has ended, or later.
* `applyEdits_splices`: **edits are carried out unless they clash**, in any order.
-/

namespace MarkupIndent.Margin

/-! ## Edits that clash -/

/-- The edit replaces a stretch of a text of a length. -/
def Edit.Within (limit : Nat) (e : Edit) : Prop :=
  0 ≤ e.start ∧ e.start ≤ e.stop ∧ e.stop ≤ limit

/-- Neither of two edits ends at or before the beginning of the other. -/
def Edit.Overlaps (a b : Edit) : Prop :=
  ¬ a.stop ≤ b.start ∧ ¬ b.stop ≤ a.start

/-- Two edits replace nothing, at the same place. -/
def Edit.Coincides (a b : Edit) : Prop :=
  a.start = a.stop ∧ b.start = b.stop ∧ a.start = b.start

/-- Some edit leaves the text, or two edits of the list overlap. -/
def Clash (limit : Nat) (edits : List Edit) : Prop :=
  (∃ e ∈ edits, ¬ e.Within limit) ∨
    ∃ (i j : Nat) (a b : Edit), i ≠ j ∧ edits[i]? = some a ∧ edits[j]? = some b ∧ a.Overlaps b

instance (limit : Nat) (e : Edit) : Decidable (e.Within limit) :=
  inferInstanceAs (Decidable (_ ∧ _))

instance (a b : Edit) : Decidable (a.Overlaps b) :=
  inferInstanceAs (Decidable (_ ∧ _))

instance (a b : Edit) : Decidable (a.Coincides b) :=
  inferInstanceAs (Decidable (_ ∧ _))

theorem Edit.Overlaps.symm {a b : Edit} (h : a.Overlaps b) : b.Overlaps a :=
  ⟨h.2, h.1⟩

/-- A symmetric relation that never holds between two places of a list. -/
theorem pairwise_not_iff {R : Edit → Edit → Prop} (hR : ∀ a b, R a b → R b a) (edits : List Edit) :
    edits.Pairwise (fun a b => ¬ R a b) ↔
      ¬ ∃ (i j : Nat) (a b : Edit), i ≠ j ∧ edits[i]? = some a ∧ edits[j]? = some b ∧ R a b := by
  rw [List.pairwise_iff_getElem]
  constructor
  · rintro h ⟨i, j, a, b, hne, ha, hb, hab⟩
    obtain ⟨hi, rfl⟩ := List.getElem?_eq_some_iff.mp ha
    obtain ⟨hj, rfl⟩ := List.getElem?_eq_some_iff.mp hb
    rcases Nat.lt_or_gt_of_ne hne with hlt | hlt
    · exact h i j hi hj hlt hab
    · exact h j i hj hi hlt (hR _ _ hab)
  · intro h i j hi hj hlt hab
    exact h ⟨i, j, _, _, Nat.ne_of_lt hlt, List.getElem?_eq_getElem hi, List.getElem?_eq_getElem hj,
      hab⟩

theorem not_clash_iff {limit : Nat} {edits : List Edit} : ¬ Clash limit edits ↔
    (∀ e ∈ edits, e.Within limit) ∧ edits.Pairwise fun a b => ¬ a.Overlaps b := by
  rw [Clash, not_or, pairwise_not_iff (fun _ _ => Edit.Overlaps.symm)]
  simp only [not_exists, not_and, not_not]

instance (limit : Nat) (edits : List Edit) : Decidable (Clash limit edits) :=
  decidable_of_iff _ (not_congr not_clash_iff.symm |>.trans not_not)

/-! ## Splicing edits in -/

/-- Edits are carried out in turn on the rest of a text from an offset on: what stands before an
edit is kept, and the stretch of the edit gives way to its text. -/
inductive Spliced : (offset : Nat) → List Edit → List Char → List Char → Prop
  | rest {o : Nat} {a : List Char} : Spliced o [] a a
  | edit {o : Nat} {e : Edit} {edits : List Edit} {kept old a b : List Char} :
      e.start = (o + kept.length : Nat) → e.stop = (o + kept.length + old.length : Nat) →
      Spliced (o + kept.length + old.length) edits a b →
      Spliced o (e :: edits) (kept ++ (old ++ a)) (kept ++ (e.text ++ b))

/-- By how much an edit makes a text longer. -/
def Edit.growth (e : Edit) : Int :=
  e.text.length - (e.stop - e.start)

variable {o limit : Nat} {edits others : List Edit} {a b rest : List Char}

theorem Spliced.length_eq (h : Spliced o edits a b) :
    (b.length : Int) = a.length + (edits.map Edit.growth).sum := by
  induction h with
  | rest => simp
  | edit hstart hstop _ ih =>
    simp only [List.length_append, List.map_cons, List.sum_cons, Edit.growth]
    omega

/-- Edits that are spliced in lie in the rest of the text, one after the other. -/
theorem Spliced.inTurn (h : Spliced o edits a b) :
    (∀ e ∈ edits, o ≤ e.start ∧ e.start ≤ e.stop ∧ e.stop ≤ (o + a.length : Nat)) ∧
      edits.Pairwise fun e f => e.stop ≤ f.start := by
  induction h with
  | rest => exact ⟨by simp, .nil⟩
  | @edit o e edits kept old a b hstart hstop _ ih =>
    obtain ⟨hin, hord⟩ := ih
    simp only [List.length_append]
    refine ⟨fun f hf => ?_, List.pairwise_cons.mpr ⟨fun f hf => ?_, hord⟩⟩
    · rcases List.mem_cons.mp hf with rfl | hf
      · omega
      · have := hin f hf
        omega
    · have := hin f hf
      omega

/-- The stretch of an edit cuts the rest of a text in three. -/
theorem exists_cut {e : Edit} (hfirst : o ≤ e.start) (hle : e.start ≤ e.stop)
    (hlast : e.stop ≤ (o + rest.length : Nat)) :
    ∃ kept old a : List Char, rest = kept ++ (old ++ a) ∧ e.start = (o + kept.length : Nat) ∧
      e.stop = (o + kept.length + old.length : Nat) := by
  obtain ⟨k, hk⟩ : ∃ k : Nat, e.start = (o + k : Nat) := ⟨(e.start - o).toNat, by omega⟩
  obtain ⟨n, hn⟩ : ∃ n : Nat, e.stop = (o + k + n : Nat) := ⟨(e.stop - e.start).toNat, by omega⟩
  have hkept : (rest.take k).length = k := by rw [List.length_take]; omega
  have hold : ((rest.drop k).take n).length = n := by
    rw [List.length_take, List.length_drop]; omega
  refine ⟨rest.take k, (rest.drop k).take n, (rest.drop k).drop n, ?_, ?_, ?_⟩
  · rw [List.take_append_drop, List.take_append_drop]
  · rw [hkept, hk]
  · rw [hkept, hold, hn]

/-- Edits that lie in the rest of a text, one after the other, can be spliced in. -/
theorem exists_spliced
    (hin : ∀ e ∈ edits, o ≤ e.start ∧ e.start ≤ e.stop ∧ e.stop ≤ (o + rest.length : Nat))
    (hord : edits.Pairwise fun e f => e.stop ≤ f.start) : ∃ b, Spliced o edits rest b := by
  induction edits generalizing o rest with
  | nil => exact ⟨rest, .rest⟩
  | cons e edits ih =>
    obtain ⟨he, hin⟩ := List.forall_mem_cons.mp hin
    obtain ⟨hfirst, hord⟩ := List.pairwise_cons.mp hord
    obtain ⟨kept, old, a, rfl, hstart, hstop⟩ := exists_cut he.1 he.2.1 he.2.2
    simp only [List.length_append] at hin
    have hlater : ∀ f ∈ edits, (o + kept.length + old.length : Nat) ≤ f.start ∧
        f.start ≤ f.stop ∧ f.stop ≤ (o + kept.length + old.length + a.length : Nat) := by
      intro f hf
      have := hin f hf
      have := hfirst f hf
      omega
    obtain ⟨b, hb⟩ := ih hlater hord
    exact ⟨kept ++ (e.text ++ b), .edit hstart hstop hb⟩

/-- Carrying out the first of some edits keeps what stands before it. -/
theorem applyFrom_edit {e : Edit} {kept old : List Char}
    (hlimit : o + kept.length + old.length ≤ limit) (hstart : e.start = (o + kept.length : Nat))
    (hstop : e.stop = (o + kept.length + old.length : Nat)) :
    applyFrom limit o (kept ++ (old ++ a)) (e :: edits) =
      (applyFrom limit (o + kept.length + old.length) a edits).map
        fun b => kept ++ (e.text ++ b) := by
  have htake : (kept ++ (old ++ a)).take (e.start.toNat - o) = kept := List.take_left' (by omega)
  have hdrop : (kept ++ (old ++ a)).drop (e.stop.toNat - o) = a := by
    rw [← List.append_assoc]
    exact List.drop_left' (by rw [List.length_append]; omega)
  have hnext : e.stop.toNat = o + kept.length + old.length := by omega
  rw [applyFrom, if_neg (by omega), hdrop, hnext]
  dsimp only
  rw [htake]
  cases applyFrom limit (o + kept.length + old.length) a edits with
  | error f => rfl
  | ok b => simp only [bind, Except.bind, Except.map, List.append_assoc]

/-- **Carrying out edits in turn** splices them in. -/
theorem applyFrom_eq_ok_iff (hlimit : limit = o + rest.length) :
    applyFrom limit o rest edits = .ok b ↔ Spliced o edits rest b := by
  constructor
  · intro h
    induction edits generalizing o rest b with
    | nil =>
      cases h
      exact .rest
    | cons e edits ih =>
      by_cases hfits : e.start < o ∨ e.stop < e.start ∨ limit < e.stop
      · rw [applyFrom, if_pos hfits] at h
        cases h
      · have hstop : e.stop ≤ (o + rest.length : Nat) := by omega
        obtain ⟨kept, old, a, rfl, hstart, hstop⟩ := exists_cut (by omega) (by omega) hstop
        simp only [List.length_append] at hlimit
        rw [applyFrom_edit (by omega) hstart hstop] at h
        cases hrun : applyFrom limit (o + kept.length + old.length) a edits with
        | error f =>
          rw [hrun] at h
          cases h
        | ok after =>
          rw [hrun] at h
          cases h
          exact .edit hstart hstop (ih (by omega) hrun)
  · intro h
    induction h with
    | rest => rfl
    | edit hstart hstop _ ih =>
      simp only [List.length_append] at hlimit
      rw [applyFrom_edit (by omega) hstart hstop, ih (by omega)]
      rfl

/-! ## Failures -/

/-- The stretch that an edit replaces. -/
def Edit.range (e : Edit) : Int × Int :=
  (e.start, e.stop)

theorem applyFrom_error {f : Fault} (h : applyFrom limit o rest edits = .error f) :
    f.isInconsistency = true := by
  induction edits generalizing o rest with
  | nil => cases h
  | cons e edits ih =>
    rw [applyFrom] at h
    split at h
    · cases h
      rfl
    · cases hafter : applyFrom limit e.stop.toNat (rest.drop (e.stop.toNat - o)) edits with
      | error g =>
        rw [hafter] at h
        cases h
        exact ih hafter
      | ok after =>
        rw [hafter] at h
        cases h

/-- Where carrying out edits fails, it fails in the same way for all edits of the same stretches,
whatever their texts are. -/
theorem applyFrom_error_of_ranges {f : Fault} (hsame : edits.map Edit.range = others.map Edit.range)
    (h : applyFrom limit o rest edits = .error f) : applyFrom limit o rest others = .error f := by
  induction edits generalizing o rest others with
  | nil => cases h
  | cons e edits ih =>
    cases others with
    | nil => cases hsame
    | cons e' others =>
      rw [List.map_cons, List.map_cons, List.cons.injEq, Edit.range, Edit.range, Prod.mk.injEq]
        at hsame
      obtain ⟨⟨hstart, hstop⟩, hsame⟩ := hsame
      rw [applyFrom] at h ⊢
      rw [← hstart, ← hstop]
      split at h
      · next hbad =>
        rw [if_pos hbad]
        exact h
      · next hfits =>
        rw [if_neg hfits]
        cases hafter : applyFrom limit e.stop.toNat (rest.drop (e.stop.toNat - o)) edits with
        | error g =>
          rw [hafter] at h
          cases h
          rw [ih hsame hafter]
          rfl
        | ok after =>
          rw [hafter] at h
          cases h

/-! ## Edits in order -/

/-- The stretch of an edit begins before that of another, or with it and ends no later. -/
def InFront (p q : Int × Int) : Prop :=
  p.1 < q.1 ∨ p.1 = q.1 ∧ p.2 ≤ q.2

theorem InFront.antisymm {p q : Int × Int} (h : InFront p q) (h' : InFront q p) : p = q := by
  unfold InFront at h h'
  exact Prod.ext (by omega) (by omega)

theorem perm_inOrder (edits : List Edit) : (inOrder edits).Perm edits :=
  List.mergeSort_perm edits _

theorem sorted_inOrder (edits : List Edit) :
    (inOrder edits).Pairwise fun e f => InFront e.range f.range := by
  refine (List.pairwise_mergeSort ?_ ?_ edits).imp fun {e f} h => ?_
  · intro e f g
    simp only [Bool.or_eq_true, Bool.and_eq_true, decide_eq_true_eq, beq_iff_eq]
    omega
  · intro e f
    simp only [Bool.or_eq_true, Bool.and_eq_true, decide_eq_true_eq, beq_iff_eq]
    omega
  · simpa [InFront, Edit.range] using h

/-- Edits without a clash follow each other when they are in order. -/
theorem inTurn_inOrder (h : ¬ Clash limit edits) :
    (∀ e ∈ inOrder edits, e.Within limit) ∧
      (inOrder edits).Pairwise fun e f => e.stop ≤ f.start := by
  obtain ⟨hin, hapart⟩ := not_clash_iff.mp h
  have hperm := perm_inOrder edits
  have hin' : ∀ e ∈ inOrder edits, e.Within limit := fun e he => hin e (hperm.mem_iff.mp he)
  have hapart' : (inOrder edits).Pairwise fun e f => ¬ e.Overlaps f :=
    (hperm.pairwise_iff fun hab hba => hab hba.symm).mpr hapart
  refine ⟨hin', ((sorted_inOrder edits).and hapart').imp_of_mem fun {e f} he hf hef => ?_⟩
  have h1 := hin' e he
  have h2 := hin' f hf
  unfold InFront Edit.Overlaps Edit.range at hef
  unfold Edit.Within at h1 h2
  -- Of two edits in order, the second ends before the first begins only if both are empty there.
  omega

/-- Stretches in order are those of any rearrangement in order. -/
theorem ranges_inOrder (h : others.Perm edits) :
    (inOrder others).map Edit.range = (inOrder edits).map Edit.range := by
  have hperm : ((inOrder others).map Edit.range).Perm ((inOrder edits).map Edit.range) :=
    (((perm_inOrder others).trans h).trans (perm_inOrder edits).symm).map _
  exact hperm.eq_of_pairwise (fun _ _ _ _ => InFront.antisymm)
    (List.pairwise_map.mpr (sorted_inOrder others)) (List.pairwise_map.mpr (sorted_inOrder edits))

/-- If no two edits are empty at the same place and none overlap, their order is fixed. -/
theorem inOrder_eq (h : others.Perm edits) (hclash : ¬ Clash limit edits)
    (hapart : edits.Pairwise fun e f => ¬ e.Coincides f) : inOrder others = inOrder edits := by
  obtain ⟨hin, hover⟩ := not_clash_iff.mp hclash
  have hperm := ((perm_inOrder others).trans h).trans (perm_inOrder edits).symm
  refine hperm.eq_of_pairwise (fun e f he hf hef hfe => ?_) (sorted_inOrder others)
    (sorted_inOrder edits)
  have he := (((perm_inOrder others).trans h).mem_iff).mp he
  have hf := (perm_inOrder edits).mem_iff.mp hf
  have hrange : e.range = f.range := hef.antisymm hfe
  rw [Edit.range, Edit.range, Prod.mk.injEq] at hrange
  by_contra hne
  have : Std.Symm fun e f : Edit => ¬ e.Overlaps f ∧ ¬ e.Coincides f :=
    ⟨fun e f h => ⟨fun h' => h.1 h'.symm, fun h' => h.2 ⟨h'.2.1, h'.1, h'.2.2.symm⟩⟩⟩
  obtain ⟨h1, h2⟩ := (hover.and hapart).forall he hf hne
  have h3 := hin e he
  unfold Edit.Overlaps at h1
  unfold Edit.Coincides at h2
  unfold Edit.Within at h3
  omega

/-! ## Carrying out edits -/

theorem applyEdits_eq_ok_iff {text result : List Char} :
    applyEdits text edits = .ok result ↔ Spliced 0 (inOrder edits) text result :=
  applyFrom_eq_ok_iff (Nat.zero_add _).symm

/-- Edits that are carried out do not clash. -/
theorem not_clash_of_spliced {text result : List Char}
    (h : Spliced 0 (inOrder edits) text result) : ¬ Clash text.length edits := by
  obtain ⟨hin, hord⟩ := h.inTurn
  have hperm := perm_inOrder edits
  refine not_clash_iff.mpr ⟨fun e he => ?_, ?_⟩
  · have := hin e (hperm.mem_iff.mpr he)
    unfold Edit.Within
    omega
  · exact (hperm.pairwise_iff fun hab hba => hab hba.symm).mp
      (hord.imp fun hef hover => hover.1 hef)

theorem exists_spliced_of_not_clash {text : List Char} (h : ¬ Clash text.length edits) :
    ∃ result, Spliced 0 (inOrder edits) text result := by
  obtain ⟨hin, hord⟩ := inTurn_inOrder h
  refine exists_spliced (fun e he => ?_) hord
  have := hin e he
  unfold Edit.Within at this
  omega

end MarkupIndent.Margin
