import MarkupIndent.Text.Loose
import MarkupIndent.Text.Lower

/-!
# Lower case is final

No character that the mapping to lower case gives is one that it changes, so a text in lower case
is its own lower case. Beyond ASCII this is a fact about the table: no run of it has an image that
is a source of a run.

* `IsLower`: a text that the mapping leaves as it is; `lower_of_isLower`.
* `isLower_lower`: what the mapping gives is such a text.
* `lower_lower`: **the mapping is idempotent.**
-/

namespace MarkupIndent.Text

/-- A run of the table: first and last source, step, and the image of the first. -/
abbrev LowerRun := Nat × Nat × Nat × Nat

/-! ## The table -/

/-- No image of the run `r` is a source of the run `s`: they are in different places, or every
other one of a place. -/
def LowerRun.apart (r s : LowerRun) : Bool :=
  Nat.blt (r.2.2.2 + (r.2.1 - r.1)) s.1 || Nat.blt s.2.1 r.2.2.2 ||
    ((r.2.2.1 == 2 || r.1 == r.2.1) && s.2.2.1 == 2 && (r.2.2.2 + s.1) % 2 == 1)

/-- The images of a run are characters, and no capital letters of ASCII or such as need a rule of
their own. -/
def LowerRun.proper (r : LowerRun) : Bool :=
  Nat.blt 0x5a r.2.2.2 && (Nat.blt (r.2.2.2 + (r.2.1 - r.1)) 0xd800 ||
    Nat.blt 0xdfff r.2.2.2 && Nat.blt (r.2.2.2 + (r.2.1 - r.1)) 0x110000) &&
  [0x130, 0x3a3].all fun n => Nat.blt (r.2.2.2 + (r.2.1 - r.1)) n || Nat.blt n r.2.2.2

theorem lowerRuns_apart : ∀ r ∈ lowerRuns, ∀ s ∈ lowerRuns, LowerRun.apart r s = true := by
  have h : (lowerRuns.all fun r => lowerRuns.all fun s => LowerRun.apart r s) = true := by
    decide +kernel
  intro r hr s hs
  exact List.all_eq_true.mp (List.all_eq_true.mp h r hr) s hs

theorem lowerRuns_proper : ∀ r ∈ lowerRuns, LowerRun.proper r = true := by
  have h : lowerRuns.all LowerRun.proper = true := by decide +kernel
  exact List.all_eq_true.mp h

/-- The code point is a source of the run. -/
def LowerRun.Maps (r : LowerRun) (n : Nat) : Prop :=
  r.1 ≤ n ∧ n ≤ r.2.1 ∧ (n - r.1) % r.2.2.1 = 0

/-- A code point has an image in a run, or it is its own. -/
theorem lowerCode_cases (n : Nat) :
    (∃ r ∈ lowerRuns, LowerRun.Maps r n ∧ lowerCode n = r.2.2.2 + (n - r.1)) ∨
      (∀ r ∈ lowerRuns, ¬ LowerRun.Maps r n) ∧ lowerCode n = n := by
  unfold lowerCode
  split
  · next r hr =>
    have hmaps := List.find?_some hr
    simp only [Bool.and_eq_true, decide_eq_true_eq, beq_iff_eq] at hmaps
    exact .inl ⟨r, List.mem_of_find?_eq_some hr, ⟨hmaps.1.1, hmaps.1.2, hmaps.2⟩, rfl⟩
  · next hr =>
    refine .inr ⟨fun r hmem hmaps => ?_, rfl⟩
    have := List.find?_eq_none.mp hr r hmem
    simp only [Bool.and_eq_true, decide_eq_true_eq, beq_iff_eq] at this
    exact this ⟨⟨hmaps.1, hmaps.2.1⟩, hmaps.2.2⟩

theorem LowerRun.not_maps_image {r s : LowerRun} {n : Nat} (h : LowerRun.apart r s = true)
    (hr : LowerRun.Maps r n) : ¬ LowerRun.Maps s (r.2.2.2 + (n - r.1)) := by
  obtain ⟨h1, h2, h3⟩ := hr
  rintro ⟨h4, h5, h6⟩
  simp only [LowerRun.apart, Bool.or_eq_true, Bool.and_eq_true, Nat.blt_eq, beq_iff_eq] at h
  rcases h with (h | h) | ⟨⟨h7, h8⟩, h9⟩
  · omega
  · omega
  · rw [h8] at h6
    rcases h7 with h7 | h7
    · rw [h7] at h3
      omega
    · omega

/-- **An image is its own image.** -/
theorem lowerCode_lowerCode (n : Nat) : lowerCode (lowerCode n) = lowerCode n := by
  rcases lowerCode_cases n with ⟨r, hr, hmaps, h⟩ | ⟨-, h⟩
  · rcases lowerCode_cases (lowerCode n) with ⟨s, hs, hmaps', -⟩ | ⟨-, h'⟩
    · rw [h] at hmaps'
      exact absurd hmaps' (LowerRun.not_maps_image (lowerRuns_apart r hr s hs) hmaps)
    · exact h'
  · rw [h, h]

/-! ## Characters -/

/-- The mapping leaves the character as it is, wherever it stands. -/
def IsLowerChar (c : Char) : Prop :=
  c.toNat ≠ 0x3a3 ∧ lowerChar c = [c]

theorem isLowerChar_ascii {c : Char} (h : c.toNat < 0x80)
    (hc : ¬ (0x41 ≤ c.toNat ∧ c.toNat ≤ 0x5a)) : IsLowerChar c := by
  refine ⟨by omega, ?_⟩
  have : (decide (0x41 ≤ c.toNat) && decide (c.toNat ≤ 0x5a)) = false := by
    simpa using hc
  simp [lowerChar, this, h]

/-- A character beyond ASCII that is its own image and needs no rule of its own. -/
theorem isLowerChar_of_lowerCode {c : Char} (h : 0x80 ≤ c.toNat) (h1 : c.toNat ≠ 0x130)
    (h2 : c.toNat ≠ 0x3a3) (hc : lowerCode c.toNat = c.toNat) : IsLowerChar c := by
  refine ⟨h2, ?_⟩
  have h3 : (decide (0x41 ≤ c.toNat) && decide (c.toNat ≤ 0x5a)) = false := by
    simp
    omega
  have h4 : ¬ c.toNat < 0x80 := by omega
  simp [lowerChar, h3, h4, h1, hc, Char.ofNat_toNat]

/-- The image of a character is a character. -/
theorem toNat_lowerCode (c : Char) :
    (Char.ofNat (lowerCode c.toNat)).toNat = lowerCode c.toNat := by
  rcases lowerCode_cases c.toNat with ⟨r, hr, ⟨h1, h2, -⟩, h⟩ | ⟨-, h⟩
  · have hproper := lowerRuns_proper r hr
    simp only [LowerRun.proper, Bool.and_eq_true, Bool.or_eq_true, Nat.blt_eq] at hproper
    refine LooseText.toNat_ofNat ?_
    rw [h, Nat.isValidChar]
    omega
  · rw [h, Char.ofNat_toNat]

/-- What the mapping gives for a character, capital sigma apart, it leaves as it is. -/
theorem isLowerChar_lowerChar {c : Char} (hc : c.toNat ≠ 0x3a3) :
    ∀ x ∈ lowerChar c, IsLowerChar x := by
  unfold lowerChar
  simp only [Bool.and_eq_true, decide_eq_true_eq, beq_iff_eq]
  split
  · next h =>
    intro x hx
    obtain rfl := List.mem_singleton.mp hx
    have hval := LooseText.toNat_ofNat (n := c.toNat + 0x20) (Or.inl (by omega))
    exact isLowerChar_ascii (by omega) (by omega)
  split
  · next h1 h2 =>
    intro x hx
    obtain rfl := List.mem_singleton.mp hx
    exact isLowerChar_ascii h2 h1
  split
  · intro x hx
    simp only [List.mem_cons, List.not_mem_nil, or_false] at hx
    rcases hx with rfl | rfl
    · exact ⟨by decide, by decide +kernel⟩
    · exact ⟨by decide, by decide +kernel⟩
  · next h1 h2 h3 =>
    intro x hx
    obtain rfl := List.mem_singleton.mp hx
    rcases lowerCode_cases c.toNat with ⟨r, hr, ⟨h4, h5, -⟩, h⟩ | ⟨-, h⟩
    · have hproper := lowerRuns_proper r hr
      simp only [LowerRun.proper, Bool.and_eq_true, Bool.or_eq_true, Nat.blt_eq, List.all_cons,
        List.all_nil, and_true] at hproper
      obtain ⟨⟨h6, h7⟩, h8, h9⟩ := hproper
      have hval := toNat_lowerCode c
      by_cases hascii : lowerCode c.toNat < 0x80
      · exact isLowerChar_ascii (by omega) (by omega)
      · refine isLowerChar_of_lowerCode (by omega) (by omega) (by omega) ?_
        rw [hval, lowerCode_lowerCode]
    · rw [h, Char.ofNat_toNat]
      exact isLowerChar_of_lowerCode (by omega) h3 hc h

/-! ## Texts -/

/-- A text that the mapping leaves as it is. -/
def IsLower (text : List Char) : Prop := ∀ c ∈ text, IsLowerChar c

theorem isLower_lowerAfter (cased : Bool) (text : List Char) : IsLower (lowerAfter cased text) := by
  fun_induction lowerAfter cased text with
  | case1 => simp [IsLower]
  | case2 cased c rest image ih =>
    refine List.forall_mem_append.mpr ⟨?_, ih⟩
    show ∀ x ∈ (if c.toNat == 0x3a3 then _ else _), _
    split
    · -- Both forms of a small sigma.
      intro x hx
      obtain rfl := List.mem_singleton.mp hx
      split
      · exact ⟨by decide, by decide +kernel⟩
      · exact ⟨by decide, by decide +kernel⟩
    · next hne => exact isLowerChar_lowerChar (by simpa using hne)

/-- What the mapping gives is in lower case. -/
theorem isLower_lower (text : List Char) : IsLower (lower text) :=
  isLower_lowerAfter false text

theorem lowerAfter_of_isLower {text : List Char} (h : IsLower text) (cased : Bool) :
    lowerAfter cased text = text := by
  induction text generalizing cased with
  | nil => rfl
  | cons c rest ih =>
    obtain ⟨hc, hrest⟩ := List.forall_mem_cons.mp h
    have hne : (c.toNat == 0x3a3) = false := beq_eq_false_iff_ne.mpr hc.1
    rw [lowerAfter, ih hrest, hne, hc.2]
    rfl

theorem lower_of_isLower {text : List Char} (h : IsLower text) : lower text = text :=
  lowerAfter_of_isLower h false

/-- **A text in lower case is its own lower case.** -/
theorem lower_lower (text : List Char) : lower (lower text) = lower text :=
  lower_of_isLower (isLower_lower text)

end MarkupIndent.Text
