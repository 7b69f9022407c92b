import Mathlib.Data.List.TakeWhile
import MarkupIndent.Margin.Unit
import MarkupIndent.Proofs.LowerCase

/-!
# The word for tabs

A setting names tabs by the three letters of the word, each small or capital, with any blanks
around them. A text is first trimmed and then mapped to lower case, and the mapping is that of all
of Unicode; yet nothing but the letters of ASCII is mapped to them. A tab by itself would do as
well for the unit of an analysis, but trimming never leaves one.

* `Text.IsTabWord`: the texts that name tabs.
* `Text.exists_of_lowerAfter`: what is mapped to a character of ASCII.
* `Text.lower_trim_eq_tab_iff`, `Text.lower_trim_ne_tab`: what trimming and mapping make of a text.
* `isTabWord_iff`: the check of a unit accepts these texts and no others.
-/

namespace MarkupIndent.Text

/-! ## What is mapped to ASCII -/

/-- Beyond ASCII, only the Kelvin sign has an image in it. -/
theorem lowerRuns_image : ∀ r ∈ lowerRuns, 0x80 ≤ r.2.2.2 ∨ r.1 = r.2.1 ∧ r.2.2.2 = 0x6b := by
  have h : (lowerRuns.all fun r =>
      Nat.ble 0x80 r.2.2.2 || (r.1 == r.2.1 && r.2.2.2 == 0x6b)) = true := by decide +kernel
  intro r hr
  simpa using List.all_eq_true.mp h r hr

theorem lowerCode_image {n : Nat} (h : 0x80 ≤ n) : 0x80 ≤ lowerCode n ∨ lowerCode n = 0x6b := by
  rcases lowerCode_cases n with ⟨r, hr, ⟨h1, h2, -⟩, himage⟩ | ⟨-, himage⟩
  · rcases lowerRuns_image r hr with h3 | ⟨h3, h4⟩ <;> omega
  · omega

/-- A character, or the capital of a small letter. -/
def Spells (x c : Char) : Prop :=
  c = x ∨ c.toNat + 0x20 = x.toNat

theorem Spells.mem {x c : Char} (h : Spells x c) : c ∈ [x, Char.ofNat (x.toNat - 0x20)] := by
  rcases h with rfl | h
  · exact List.mem_cons_self
  · rw [← h, Nat.add_sub_cancel, Char.ofNat_toNat]
    exact List.mem_cons_of_mem _ List.mem_cons_self

theorem lowerChar_ne_nil (c : Char) : lowerChar c ≠ [] := by
  unfold lowerChar
  simp only
  repeat' split
  all_goals exact List.cons_ne_nil _ _

theorem eq_nil_of_lowerAfter {cased : Bool} {text : List Char} (h : lowerAfter cased text = []) :
    text = [] := by
  cases text with
  | nil => rfl
  | cons c rest =>
    rw [lowerAfter, List.append_eq_nil_iff] at h
    split at h
    · exact absurd h.1 (List.cons_ne_nil _ _)
    · exact absurd h.1 (lowerChar_ne_nil c)

/-- A character of ASCII other than a small I or K is the image of itself and of its capital
alone. -/
theorem spells_of_lowerChar {c x : Char} {xs : List Char} (hx : x.toNat < 0x80) (hi : x ≠ 'i')
    (hk : x ≠ 'k') (h : lowerChar c = x :: xs) : Spells x c ∧ xs = [] := by
  unfold lowerChar at h
  simp only [Bool.and_eq_true, decide_eq_true_eq, beq_iff_eq] at h
  split at h
  · obtain ⟨rfl, rfl⟩ := List.cons.inj h
    exact ⟨.inr (LooseText.toNat_ofNat (.inl (by omega))).symm, rfl⟩
  split at h
  · obtain ⟨rfl, rfl⟩ := List.cons.inj h
    exact ⟨.inl rfl, rfl⟩
  split at h
  · exact absurd (List.cons.inj h).1.symm hi
  · next hascii _ =>
    obtain ⟨rfl, rfl⟩ := List.cons.inj h
    rw [toNat_lowerCode] at hx
    rcases lowerCode_image (n := c.toNat) (by omega) with himage | himage
    · omega
    · rw [himage] at hk
      exact absurd rfl hk

/-- **What is mapped to such a character** begins with it or with its capital. -/
theorem exists_of_lowerAfter {cased : Bool} {text : List Char} {x : Char} {xs : List Char}
    (hx : x.toNat < 0x80) (hi : x ≠ 'i') (hk : x ≠ 'k') (h : lowerAfter cased text = x :: xs) :
    ∃ c rest cased', text = c :: rest ∧ Spells x c ∧ lowerAfter cased' rest = xs := by
  cases text with
  | nil => cases h
  | cons c rest =>
    rw [lowerAfter] at h
    split at h
    · -- No form of a small sigma is in ASCII.
      obtain ⟨rfl, -⟩ := List.cons.inj h
      split at hx <;> exact absurd hx (by decide)
    · cases hc : lowerChar c with
      | nil => exact absurd hc (lowerChar_ne_nil c)
      | cons y ys =>
        rw [hc, List.cons_append] at h
        obtain ⟨rfl, rfl⟩ := List.cons.inj h
        obtain ⟨hspells, rfl⟩ := spells_of_lowerChar hx hi hk hc
        exact ⟨c, rest, _, rfl, hspells, rfl⟩

/-! ## Trimming -/

theorem trimLeft_eq (text : List Char) :
    trimLeft text = trim text ++ ((trimLeft text).reverse.takeWhile isBlank).reverse := by
  rw [trim, trimRight, ← List.reverse_append, List.takeWhile_append_dropWhile,
    List.reverse_reverse]

/-- Trimming takes blanks away at both ends. -/
theorem trim_split (text : List Char) : ∃ before after : List Char,
    text = before ++ trim text ++ after ∧ ∀ c ∈ before ++ after, isBlank c = true := by
  refine ⟨text.takeWhile isBlank, ((trimLeft text).reverse.takeWhile isBlank).reverse, ?_, ?_⟩
  · rw [List.append_assoc, ← trimLeft_eq, trimLeft, List.takeWhile_append_dropWhile]
  · intro c hc
    rcases List.mem_append.mp hc with hc | hc
    · exact List.mem_takeWhile_imp hc
    · exact List.mem_takeWhile_imp (List.mem_reverse.mp hc)

/-- What trimming leaves does not begin with a blank. -/
theorem isBlank_of_trim {text rest : List Char} {c : Char} (h : trim text = c :: rest) :
    isBlank c = false := by
  have hhead := List.head?_dropWhile_not isBlank text
  rw [← trimLeft, trimLeft_eq, h] at hhead
  exact hhead

/-- Trimming leaves what stands between blanks, if it begins and ends with other characters. -/
theorem trim_between {before word after : List Char} {c d : Char}
    (hblank : ∀ c ∈ before ++ after, isBlank c = true) (hfirst : word.head? = some c)
    (hc : isBlank c = false) (hlast : word.getLast? = some d) (hd : isBlank d = false) :
    trim (before ++ word ++ after) = word := by
  obtain ⟨hbefore, hafter⟩ := List.forall_mem_append.mp hblank
  obtain ⟨rest, rfl⟩ := List.head?_eq_some_iff.mp hfirst
  obtain ⟨init, hinit⟩ := List.getLast?_eq_some_iff.mp hlast
  have hleft : trimLeft (before ++ (c :: rest) ++ after) = c :: rest ++ after := by
    rw [List.append_assoc, trimLeft, List.dropWhile_append_of_pos hbefore, List.cons_append,
      List.dropWhile_cons_of_neg (by simp [hc])]
  rw [trim, hleft, trimRight, List.reverse_append,
    List.dropWhile_append_of_pos fun c hc => hafter c (List.mem_reverse.mp hc), hinit,
    List.reverse_concat, List.dropWhile_cons_of_neg (by simp [hd]), ← List.reverse_concat,
    List.reverse_reverse]

/-! ## The word -/

/-- A text that names tabs. -/
def IsTabWord (text : List Char) : Prop :=
  ∃ before t a b after, text = before ++ [t, a, b] ++ after ∧
    (∀ c ∈ before ++ after, isBlank c = true) ∧
      t ∈ ['t', 'T'] ∧ a ∈ ['a', 'A'] ∧ b ∈ ['b', 'B']

/-- **Trimmed and in lower case, these texts are the word**, and no others are. -/
theorem lower_trim_eq_tab_iff {text : List Char} :
    lower (trim text) = ['t', 'a', 'b'] ↔ IsTabWord text := by
  constructor
  · intro h
    obtain ⟨t, _, _, htrim, ht, h⟩ :=
      exists_of_lowerAfter (by decide) (by decide) (by decide) h
    obtain ⟨a, _, _, rfl, ha, h⟩ :=
      exists_of_lowerAfter (by decide) (by decide) (by decide) h
    obtain ⟨b, rest, _, rfl, hb, h⟩ :=
      exists_of_lowerAfter (by decide) (by decide) (by decide) h
    obtain rfl := eq_nil_of_lowerAfter h
    obtain ⟨before, after, hsplit, hblank⟩ := trim_split text
    rw [htrim] at hsplit
    exact ⟨before, t, a, b, after, hsplit, hblank, ht.mem, ha.mem, hb.mem⟩
  · rintro ⟨before, t, a, b, after, rfl, hblank, ht, ha, hb⟩
    simp only [List.mem_cons, List.not_mem_nil, or_false] at ht ha hb
    have hword : isBlank t = false ∧ isBlank b = false ∧ lower [t, a, b] = ['t', 'a', 'b'] := by
      rcases ht with rfl | rfl <;> rcases ha with rfl | rfl <;> rcases hb with rfl | rfl <;>
        decide +kernel
    rw [trim_between hblank rfl hword.1 rfl hword.2.1, hword.2.2]

theorem lower_trim_ne_tab (text : List Char) : lower (trim text) ≠ ['\t'] := by
  intro h
  obtain ⟨c, rest, -, htrim, hc | hc, -⟩ :=
    exists_of_lowerAfter (by decide) (by decide) (by decide) h
  · rw [hc] at htrim
    exact absurd (isBlank_of_trim htrim) (by decide)
  · have : '\t'.toNat = 9 := rfl
    omega

end MarkupIndent.Text

namespace MarkupIndent.Margin

open Text

/-- **The check of a unit accepts the texts that name tabs.** -/
theorem isTabWord_iff {s : String} : IndentUnit.isTabWord s = true ↔ IsTabWord s.toList := by
  rw [← lower_trim_eq_tab_iff]
  have := lower_trim_ne_tab s.toList
  simp [IndentUnit.isTabWord, this]

end MarkupIndent.Margin
