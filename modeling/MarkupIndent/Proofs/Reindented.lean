import MarkupIndent.Text.Blank

/-!
# Texts that differ in their margins

The margin of a line is the blanks that it begins with. Two texts differ in their margins only if
they have the same lines otherwise; the relation is read from left to right, and the first line
counts as begun.

* `Margin`: blanks without a line end.
* `Reindented`: the same text up to the margins of the lines after the first.
* `Reindented.isPrefixOf`: a word without blanks stands in both or in neither.
-/

namespace MarkupIndent.Text

/-- Blanks inside a line. -/
def Margin (text : List Char) : Prop :=
  ∀ c ∈ text, isBlank c = true ∧ c ≠ '\n'

instance (text : List Char) : Decidable (Margin text) :=
  List.decidableBAll (fun c => isBlank c = true ∧ c ≠ '\n') text

theorem margin_nil : Margin [] := by simp [Margin]

theorem Margin.tail {c : Char} {text : List Char} (h : Margin (c :: text)) : Margin text :=
  fun d hd => h d (List.mem_cons_of_mem c hd)

theorem Margin.newline_not_mem {text : List Char} (h : Margin text) : '\n' ∉ text :=
  fun hm => (h '\n' hm).2 rfl

/-- Two texts with the same lines, up to the margins of the lines after the first. -/
inductive Reindented : List Char → List Char → Prop
  | nil : Reindented [] []
  | char {c : Char} {a b : List Char} : c ≠ '\n' → Reindented a b → Reindented (c :: a) (c :: b)
  | line {v w a b : List Char} : Margin v → Margin w → Reindented a b →
      Reindented ('\n' :: (v ++ a)) ('\n' :: (w ++ b))

theorem Reindented.refl (a : List Char) : Reindented a a := by
  induction a with
  | nil => exact .nil
  | cons c a ih =>
    by_cases hc : c = '\n'
    · subst hc
      exact .line (v := []) (w := []) margin_nil margin_nil ih
    · exact .char hc ih

theorem Reindented.append {a b x y : List Char} (h : Reindented a b) (h' : Reindented x y) :
    Reindented (a ++ x) (b ++ y) := by
  induction h with
  | nil => exact h'
  | char hc _ ih => exact .char hc ih
  | line hv hw _ ih =>
    rw [List.cons_append, List.cons_append, List.append_assoc, List.append_assoc]
    exact .line hv hw ih

/-- A word of characters that are not blank. -/
def Word (word : List Char) : Prop :=
  ∀ c ∈ word, isBlank c = false

instance (word : List Char) : Decidable (Word word) :=
  List.decidableBAll (fun c => isBlank c = false) word

/-- An opening brace and the sign of a block. -/
theorem word_blockSign {sign : Char} (h : isBlank sign = false) : Word ['{', sign] :=
  List.forall_mem_cons.mpr ⟨rfl, List.forall_mem_singleton.mpr h⟩

/-- A word without blanks is at the beginning of both texts or of neither. -/
theorem Reindented.isPrefixOf {a b word : List Char} (h : Reindented a b) (hw : Word word) :
    word.isPrefixOf a = word.isPrefixOf b := by
  induction h generalizing word with
  | nil => rfl
  | char _ _ ih =>
    cases word with
    | nil => rfl
    | cons d rest =>
      simp only [List.isPrefixOf_cons_cons]
      rw [ih fun c hc => hw c (List.mem_cons_of_mem d hc)]
  | line _ _ _ _ =>
    cases word with
    | nil => rfl
    | cons d rest =>
      have hd : (d == '\n') = false := by
        rw [beq_eq_false_iff_ne]
        rintro rfl
        cases hw '\n' List.mem_cons_self
      simp only [List.isPrefixOf_cons_cons, hd, Bool.false_and]

end MarkupIndent.Text
