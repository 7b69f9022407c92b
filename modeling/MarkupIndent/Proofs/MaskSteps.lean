import Mathlib.Data.List.Find
import Mathlib.Data.List.Forall2
import MarkupIndent.Margin.BracketScan

/-!
# Masking step by step

Masking reads a source from left to right. What it knows at a place is the construct that is open,
the number of escape characters right before, and how much is left of a mark that began earlier.
From what follows it takes one thing only: whether the text from here begins with a mark. So two
sources whose rests begin with the same of these marks are masked alike, as far as they are equal.

* `Spot`, `Spot.step`, `Spot.walk`: what is known at a place, one step, and a stretch of steps.
* `Spot.mask_append`: **masking is this walk.**
* `Spot.tested`, `Spot.walk_congr`: the marks that decide a step, and that they alone do.
* `Spot.Sound`, `Spot.sound_walk`: what is left of a mark has the characters of marks.
* `LexicalRules.MadeOf`, `LexicalRules.spotAt`: rules by the characters of their marks, and the
  spot at a place of a source.
-/

namespace MarkupIndent.Margin

/-- The mark that ends a construct. A line comment has none. -/
def LexicalState.closer : LexicalState → List Char
  | .blockComment closer | .string closer => closer
  | _ => []

theorem LexicalState.closerLength_eq (state : LexicalState) :
    state.closerLength = state.closer.length := by
  cases state <;> rfl

/-- A construct ends only where its closing mark stands, if it ends before the end of the line. -/
theorem LexicalState.isPrefixOf_of_endsAt {state : LexicalState} {escapes : Nat} {text : List Char}
    (h : state.endsAt escapes text = true) : state.closer.isPrefixOf text = true := by
  cases state with
  | code | lineComment => cases h
  | blockComment closer => exact h
  | string closer => exact (Bool.and_eq_true_iff.mp h).1

/-- What masking knows at a place of a source. -/
structure Spot where
  state : LexicalState
  escapes : Nat
  left : Nat
  deriving DecidableEq, Repr

namespace Spot

/-- The beginning of a source. -/
def start : Spot := ⟨.code, 0, 0⟩

variable (openers : List (List Char × LexicalState)) (escape : Option Char)

/-- A source masked from a spot on. -/
def mask (s : Spot) (text : List Char) : List MaskedChar :=
  Margin.mask openers escape s.state s.escapes s.left text

/-- What becomes of a character, and the spot behind it. -/
def step (s : Spot) (c : Char) (rest : List Char) : MaskedChar × Spot :=
  let escapes := countEscapes escape s.escapes c
  match s.left with
  | left + 1 => (⟨' ', false⟩, ⟨s.state, escapes, left⟩)
  | 0 =>
    if c = '\n' then (⟨'\n', s.state.goesOn⟩, ⟨s.state.afterLineEnd, escapes, 0⟩)
    else if s.state = .code then
      match openers.find? fun o => o.1.isPrefixOf (c :: rest) with
      | some (mark, opened) => (⟨' ', false⟩, ⟨opened, escapes, mark.length - 1⟩)
      | none => (⟨c, false⟩, ⟨.code, escapes, 0⟩)
    else if s.state.endsAt s.escapes (c :: rest) then
      (⟨' ', false⟩, ⟨.code, escapes, s.state.closerLength - 1⟩)
    else (⟨' ', false⟩, ⟨s.state, escapes, 0⟩)

/-- What becomes of a stretch of a source before a tail, and the spot behind it. -/
def walk (s : Spot) : (text tail : List Char) → List MaskedChar × Spot
  | [], _ => ([], s)
  | c :: rest, tail =>
    let (m, next) := s.step openers escape c (rest ++ tail)
    let (out, last) := next.walk rest tail
    (m :: out, last)

/-- The marks for which the text from a spot on is looked at. -/
def tested (s : Spot) : List (List Char) :=
  if s.left = 0 then
    if s.state = .code then openers.map Prod.fst else [s.state.closer]
  else []

variable {openers escape}

/-! ## Masking is a walk -/

theorem mask_nil (s : Spot) : s.mask openers escape [] = [] := by
  unfold mask
  cases s.left <;> simp only [Margin.mask]

/-- Masking goes on behind a character from the next spot. -/
theorem mask_cons (s : Spot) (c : Char) (rest : List Char) :
    s.mask openers escape (c :: rest) = (s.step openers escape c rest).1 ::
      (s.step openers escape c rest).2.mask openers escape rest := by
  obtain ⟨state, escapes, left⟩ := s
  unfold mask step
  cases left with
  | succ left => simp only [Margin.mask]
  | zero =>
    simp only [Margin.mask]
    split
    · rfl
    split
    · cases openers.find? fun o => o.1.isPrefixOf (c :: rest) <;> rfl
    split <;> rfl

theorem walk_cons (s : Spot) (c : Char) (rest tail : List Char) :
    s.walk openers escape (c :: rest) tail =
      ((s.step openers escape c (rest ++ tail)).1 ::
        ((s.step openers escape c (rest ++ tail)).2.walk openers escape rest tail).1,
      ((s.step openers escape c (rest ++ tail)).2.walk openers escape rest tail).2) := rfl

/-- **Masking is a walk**: what becomes of a stretch, and then the tail from the spot behind it. -/
theorem mask_append (s : Spot) (text tail : List Char) :
    s.mask openers escape (text ++ tail) = (s.walk openers escape text tail).1 ++
      (s.walk openers escape text tail).2.mask openers escape tail := by
  induction text generalizing s with
  | nil => rfl
  | cons c rest ih => rw [List.cons_append, mask_cons, ih, walk_cons, List.cons_append]

theorem mask_eq_walk (s : Spot) (text : List Char) :
    s.mask openers escape text = (s.walk openers escape text []).1 := by
  have h : s.mask openers escape (text ++ []) = _ := s.mask_append text []
  rwa [List.append_nil, mask_nil, List.append_nil] at h

theorem walk_append (s : Spot) (a b tail : List Char) :
    s.walk openers escape (a ++ b) tail =
      ((s.walk openers escape a (b ++ tail)).1 ++
        ((s.walk openers escape a (b ++ tail)).2.walk openers escape b tail).1,
      ((s.walk openers escape a (b ++ tail)).2.walk openers escape b tail).2) := by
  induction a generalizing s with
  | nil => rfl
  | cons c rest ih => simp only [List.cons_append, walk_cons, ih, List.append_assoc]

theorem length_walk (s : Spot) (text tail : List Char) :
    (s.walk openers escape text tail).1.length = text.length := by
  induction text generalizing s with
  | nil => rfl
  | cons c rest ih => rw [walk_cons, List.length_cons, ih, List.length_cons]

/-! ## The marks that decide -/

/-- **A step depends on the marks it looks for**, and on nothing else behind the character. At a
line end it looks for none. -/
theorem step_congr {s : Spot} {c : Char} {a b : List Char} (h : c ≠ '\n' →
      ∀ mark ∈ s.tested openers, mark.isPrefixOf (c :: a) = mark.isPrefixOf (c :: b)) :
    s.step openers escape c a = s.step openers escape c b := by
  obtain ⟨state, escapes, left⟩ := s
  by_cases hc : c = '\n'
  · subst hc
    cases left <;> rfl
  have h := h hc
  cases left with
  | succ left => rfl
  | zero =>
    by_cases hcode : state = .code
    · subst hcode
      have hfind : openers.find? (fun o => o.1.isPrefixOf (c :: a)) =
          openers.find? fun o => o.1.isPrefixOf (c :: b) :=
        List.find?_congr fun o ho => h o.1 (by simpa [tested] using ⟨o.2, ho⟩)
      simp only [step, hfind, if_true]
    · have hcloser := h state.closer (by simp [tested, hcode])
      have hends : state.endsAt escapes (c :: a) = state.endsAt escapes (c :: b) := by
        cases state with
        | code | lineComment => rfl
        | blockComment closer => exact hcloser
        | string closer => exact congrArg (· && !isEscaped closer escapes) hcloser
      simp only [step, if_neg hcode, hends]

/-- **Tails that no mark tells apart** make no difference to what is before them. -/
theorem walk_congr {s : Spot} {text a b : List Char}
    (h : ∀ before c after, text = before ++ c :: after → c ≠ '\n' →
      ∀ mark ∈ (s.walk openers escape before (c :: after ++ a)).2.tested openers,
        mark.isPrefixOf (c :: after ++ a) = mark.isPrefixOf (c :: after ++ b)) :
    s.walk openers escape text a = s.walk openers escape text b := by
  induction text generalizing s with
  | nil => rfl
  | cons c rest ih =>
    have hstep : s.step openers escape c (rest ++ a) = s.step openers escape c (rest ++ b) :=
      step_congr (h [] c rest rfl)
    have hrest := ih (s := (s.step openers escape c (rest ++ a)).2) fun before x after htext => by
      have := h (c :: before) x after (by rw [htext, List.cons_append])
      rwa [walk_cons, ← List.append_assoc, ← htext] at this
    rw [walk_cons, walk_cons, hrest, hstep]

end Spot

/-! ## The characters of marks -/

/-- Every mark, of those that open a construct and those that end one, is made of characters of one
kind. -/
def MarksOf (p : Char → Prop) (openers : List (List Char × LexicalState)) : Prop :=
  ∀ o ∈ openers, (∀ c ∈ o.1, p c) ∧ ∀ c ∈ o.2.closer, p c

theorem MarksOf.mono {p q : Char → Prop} {openers : List (List Char × LexicalState)}
    (h : MarksOf p openers) (hpq : ∀ c, p c → q c) : MarksOf q openers :=
  fun o hm => ⟨fun c hc => hpq c ((h o hm).1 c hc), fun c hc => hpq c ((h o hm).2 c hc)⟩

namespace Spot

variable {openers : List (List Char × LexicalState)} {escape : Option Char} {p : Char → Prop}

/-- The mark that ends what is open is made of characters of one kind, and so is what is left of a
mark before the text. -/
structure Sound (p : Char → Prop) (s : Spot) (text : List Char) : Prop where
  closer : ∀ c ∈ s.state.closer, p c
  left : ∀ c ∈ text.take s.left, p c

theorem sound_start (text : List Char) : start.Sound p text :=
  ⟨by simp [start, LexicalState.closer], by simp [start]⟩

theorem mem_tested {s : Spot} {text mark : List Char} (ho : MarksOf p openers) (hs : s.Sound p text)
    (hm : mark ∈ s.tested openers) : ∀ c ∈ mark, p c := by
  unfold tested at hm
  split at hm
  · split at hm
    · obtain ⟨o, hmem, rfl⟩ := List.mem_map.mp hm
      exact (ho o hmem).1
    · rw [List.mem_singleton.mp hm]
      exact hs.closer
  · cases hm

/-- Behind the first character of a mark, what is left of it is the rest of the mark. -/
theorem mem_take_of_isPrefixOf {mark : List Char} {c : Char} {rest : List Char}
    (hm : ∀ d ∈ mark, p d) (h : mark.isPrefixOf (c :: rest) = true) :
    ∀ d ∈ rest.take (mark.length - 1), p d := by
  obtain ⟨tail, htail⟩ := List.isPrefixOf_iff_prefix.mp h
  cases mark with
  | nil => simp
  | cons e mark =>
    rw [List.cons_append] at htail
    obtain ⟨rfl, rfl⟩ := List.cons.inj htail
    intro d hd
    rw [List.length_cons, Nat.add_sub_cancel, List.take_left] at hd
    exact hm d (List.mem_cons_of_mem _ hd)

/-- A step leaves nothing but the characters of marks. -/
theorem sound_step {s : Spot} {c : Char} {rest : List Char} (ho : MarksOf p openers)
    (hs : s.Sound p (c :: rest)) : (s.step openers escape c rest).2.Sound p rest := by
  obtain ⟨state, escapes, left⟩ := s
  cases left with
  | succ left =>
    exact ⟨hs.closer, fun d hd => hs.left d (by
      rw [List.take_succ_cons]
      exact List.mem_cons_of_mem c hd)⟩
  | zero =>
    simp only [step]
    split
    · -- Only a line comment ends here, and it has no closing mark.
      refine ⟨?_, by simp⟩
      cases state with
      | lineComment => simp [LexicalState.afterLineEnd, LexicalState.closer]
      | code | blockComment closer | string closer => exact hs.closer
    split
    · cases hfind : openers.find? fun o => o.1.isPrefixOf (c :: rest) with
      | none => exact ⟨by simp [LexicalState.closer], by simp⟩
      | some o =>
        obtain ⟨hmark, hcloser⟩ := ho o (List.mem_of_find?_eq_some hfind)
        exact ⟨hcloser, mem_take_of_isPrefixOf hmark (by simpa using List.find?_some hfind)⟩
    split
    · next hends =>
      refine ⟨by simp [LexicalState.closer], ?_⟩
      rw [state.closerLength_eq]
      exact mem_take_of_isPrefixOf hs.closer (LexicalState.isPrefixOf_of_endsAt hends)
    · exact ⟨hs.closer, by simp⟩

theorem sound_walk {s : Spot} {text tail : List Char} (ho : MarksOf p openers)
    (hs : s.Sound p (text ++ tail)) : (s.walk openers escape text tail).2.Sound p tail := by
  induction text generalizing s with
  | nil => exact hs
  | cons c rest ih =>
    rw [walk_cons]
    exact ih (sound_step ho hs)

/-- A mark does not reach to a character that is in no mark. -/
theorem Sound.left_eq_zero {s : Spot} {c : Char} {rest : List Char} (hs : s.Sound p (c :: rest))
    (hc : ¬ p c) : s.left = 0 := by
  by_contra hne
  obtain ⟨n, hn⟩ := Nat.exists_eq_succ_of_ne_zero hne
  exact hc (hs.left c (by rw [hn, List.take_succ_cons]; exact List.mem_cons_self))

/-! ## What becomes of a character -/

/-- A character stays as it is or becomes a space. -/
theorem step_kept (s : Spot) (c : Char) (rest : List Char) :
    (s.step openers escape c rest).1.char = c ∨ (s.step openers escape c rest).1.char = ' ' := by
  obtain ⟨state, escapes, left⟩ := s
  cases left with
  | succ left => exact .inr rfl
  | zero =>
    simp only [step]
    split
    · next hc => exact .inl hc.symm
    split
    · cases openers.find? fun o => o.1.isPrefixOf (c :: rest) with
      | none => exact .inl rfl
      | some o => exact .inr rfl
    split <;> exact .inr rfl

/-- Nothing but a line end becomes one. -/
theorem newline_not_mem_walk {text : List Char} (h : '\n' ∉ text) (s : Spot) (tail : List Char) :
    ∀ m ∈ (s.walk openers escape text tail).1, m.char ≠ '\n' := by
  induction text generalizing s with
  | nil => exact fun m hm => absurd hm List.not_mem_nil
  | cons c rest ih =>
    rw [walk_cons]
    intro m hm hchar
    rcases List.mem_cons.mp hm with rfl | hm
    · rcases s.step_kept c (rest ++ tail) with hk | hk
      · rw [hchar] at hk
        exact h (hk ▸ List.mem_cons_self)
      · rw [hchar] at hk
        cases hk
    · exact ih (fun hmem => h (List.mem_cons_of_mem c hmem)) _ m hm hchar

/-- A line end that is in no mark stays one. -/
theorem step_newline {s : Spot} {rest : List Char} (h : s.left = 0) :
    s.step openers escape '\n' rest =
      (⟨'\n', s.state.goesOn⟩, ⟨s.state.afterLineEnd, countEscapes escape s.escapes '\n', 0⟩) := by
  obtain ⟨state, escapes, left⟩ := s
  cases h
  rfl

end Spot

/-- What masking makes of a character: itself or a space, and a line end of a line end only. -/
structure Masks (c : Char) (m : MaskedChar) : Prop where
  kept : m.char = c ∨ m.char = ' '
  newline : m.char = '\n' ↔ c = '\n'

/-- **Masking keeps the lines.** If no mark has a line end in it, characters become what they are or
spaces, and line ends stay. -/
theorem Spot.walk_masks {openers : List (List Char × LexicalState)} {escape : Option Char}
    (ho : MarksOf (· ≠ '\n') openers) {s : Spot} {text tail : List Char}
    (hs : s.Sound (· ≠ '\n') (text ++ tail)) :
    List.Forall₂ Masks text (s.walk openers escape text tail).1 := by
  induction text generalizing s with
  | nil => exact .nil
  | cons c rest ih =>
    rw [walk_cons]
    have hkept : (s.step openers escape c (rest ++ tail)).1.char = c ∨ _ := s.step_kept c _
    refine .cons ⟨hkept, fun h => ?_, ?_⟩ (ih (sound_step ho hs))
    · rcases hkept with hk | hk
      · rw [← hk, h]
      · rw [h] at hk
        cases hk
    · rintro rfl
      rw [step_newline (hs.left_eq_zero (by simp))]

/-! ## Rules by the characters of their marks -/

theorem mem_longestFirst {α : Type} {mark : α → List Char} {marks : List α} {m : α} :
    m ∈ longestFirst mark marks ↔ m ∈ marks ∧ mark m ≠ [] := by
  simp [longestFirst, List.mem_mergeSort]

namespace LexicalRules

variable {rules : LexicalRules}

/-- What opens a construct is a mark of the language that is not empty. -/
theorem mem_openers {o : List Char × LexicalState} : o ∈ rules.openers ↔
    (∃ m ∈ rules.lineComments, m ≠ [] ∧ o = (m, .lineComment)) ∨
    (∃ q ∈ rules.blockComments, q.1 ≠ [] ∧ q.2 ≠ [] ∧ o = (q.1, .blockComment q.2)) ∨
    ∃ m ∈ rules.strings, m ≠ [] ∧ o = (m, .string m) := by
  simp only [openers, List.mem_append, List.mem_map, mem_longestFirst, List.mem_filter,
    Bool.not_eq_true', List.isEmpty_eq_false_iff, id]
  grind

/-- Every mark of a language is made of characters of one kind. -/
structure MadeOf (rules : LexicalRules) (p : Char → Prop) : Prop where
  lineComments : ∀ m ∈ rules.lineComments, ∀ c ∈ m, p c
  blockComments : ∀ q ∈ rules.blockComments, (∀ c ∈ q.1, p c) ∧ ∀ c ∈ q.2, p c
  strings : ∀ m ∈ rules.strings, ∀ c ∈ m, p c

-- The characters of a mark are looked at one by one, not all characters that there are.
instance (rules : LexicalRules) (p : Char → Prop) [DecidablePred p] : Decidable (rules.MadeOf p) :=
  haveI (mark : List Char) : Decidable (∀ c ∈ mark, p c) := List.decidableBAll p mark
  decidable_of_iff
    ((∀ m ∈ rules.lineComments, ∀ c ∈ m, p c) ∧
      (∀ q ∈ rules.blockComments, (∀ c ∈ q.1, p c) ∧ ∀ c ∈ q.2, p c) ∧
      ∀ m ∈ rules.strings, ∀ c ∈ m, p c)
    ⟨fun h => ⟨h.1, h.2.1, h.2.2⟩, fun h => ⟨h.lineComments, h.blockComments, h.strings⟩⟩

theorem MadeOf.marksOf {p : Char → Prop} (h : rules.MadeOf p) : MarksOf p rules.openers := by
  intro o ho
  rcases mem_openers.mp ho with ⟨m, hm, -, rfl⟩ | ⟨q, hq, -, -, rfl⟩ | ⟨m, hm, -, rfl⟩
  · exact ⟨h.lineComments m hm, by simp [LexicalState.closer]⟩
  · exact h.blockComments q hq
  · exact ⟨h.strings m hm, h.strings m hm⟩

/-- A source with its comments and strings blanked. -/
def blanked (rules : LexicalRules) (source : List Char) : List MaskedChar :=
  mask rules.openers rules.escape .code 0 0 source

/-- What masking knows at a place of a source. -/
def spotAt (rules : LexicalRules) (source : List Char) (i : Nat) : Spot :=
  (Spot.start.walk rules.openers rules.escape (source.take i) (source.drop i)).2

theorem blanked_append (a b : List Char) :
    rules.blanked (a ++ b) = (Spot.start.walk rules.openers rules.escape a b).1 ++
      (Spot.start.walk rules.openers rules.escape a b).2.mask rules.openers rules.escape b :=
  Spot.start.mask_append a b

theorem blanked_eq_walk (source : List Char) :
    rules.blanked source = (Spot.start.walk rules.openers rules.escape source []).1 :=
  Spot.start.mask_eq_walk source

theorem length_blanked (source : List Char) :
    (rules.blanked source).length = source.length := by
  rw [blanked_eq_walk, Spot.length_walk]

/-- What becomes of the beginning of a source. -/
theorem take_blanked (a b : List Char) : (rules.blanked (a ++ b)).take a.length =
    (Spot.start.walk rules.openers rules.escape a b).1 := by
  rw [blanked_append]
  exact List.take_left' (Spot.length_walk ..)

end LexicalRules

end MarkupIndent.Margin
