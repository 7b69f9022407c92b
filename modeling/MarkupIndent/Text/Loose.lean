/-!
# Texts with lone surrogates

A format that spells text by UTF-16 units can spell a surrogate without its partner. Such a text is
not made of characters, so it is kept by its code points.

* `LooseText`: a text that may hold such surrogates.
* `LooseText.points`, `LooseText.ofPoints`: the code points of a text, and back.
* `LooseText.wholes`: the texts of a list that are made of characters.
* `points_ofPoints`: no code point is lost or changed.
-/

namespace MarkupIndent

/-- A text: whole, or broken by surrogates that stand alone. -/
inductive LooseText where
  | whole (s : String)
  | broken (points : List Nat)
  deriving DecidableEq, Repr, Inhabited

instance : Coe String LooseText := ⟨.whole⟩

instance : Coe (List String) (List LooseText) := ⟨List.map .whole⟩

namespace LooseText

/-- The code points of a text. -/
def points : LooseText → List Nat
  | .whole s => s.toList.map Char.toNat
  | .broken points => points

/-- The text of some code points, whole if all of them are characters. -/
def ofPoints (points : List Nat) : LooseText :=
  if points.all fun n => n.isValidChar then .whole (String.ofList (points.map Char.ofNat))
  else .broken points

/-- The characters of a text, if it is whole. -/
def whole? : LooseText → Option String
  | .whole s => some s
  | .broken _ => none

/-- The texts of a list that are whole. -/
def wholes (texts : List LooseText) : List String := texts.filterMap whole?

-- Where texts are compared with names from a source, broken ones are equal to none of them.
instance : CoeOut (List LooseText) (List String) := ⟨wholes⟩

@[simp] theorem wholes_nil : wholes [] = [] := rfl

theorem mem_wholes {texts : List LooseText} {s : String} : s ∈ wholes texts ↔ .whole s ∈ texts := by
  constructor
  · intro h
    obtain ⟨t, ht, hs⟩ := List.mem_filterMap.mp h
    cases t <;> cases hs
    exact ht
  · intro h
    exact List.mem_filterMap.mpr ⟨_, h, rfl⟩

theorem toNat_ofNat {n : Nat} (h : n.isValidChar) : (Char.ofNat n).toNat = n := by
  unfold Char.ofNat
  rw [dif_pos h]
  rfl

theorem points_ofPoints (points : List Nat) : (ofPoints points).points = points := by
  unfold ofPoints
  split
  next h =>
    have valid : ∀ n ∈ points, n.isValidChar := by simpa using h
    have fixed : points.map (Char.toNat ∘ Char.ofNat) = points.map id :=
      List.map_congr_left fun n hn => toNat_ofNat (valid n hn)
    simpa [LooseText.points] using fixed
  next => rfl

end LooseText

end MarkupIndent
