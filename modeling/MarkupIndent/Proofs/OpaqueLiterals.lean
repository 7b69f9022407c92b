import MarkupIndent.Proofs.ScanLines

/-!
# Inside comments and strings

What stands inside a comment or a string counts for nothing: a character there can be replaced by
another one, and no line of the source gets another record. The exceptions are the characters that
masking looks for inside of literals, which are line ends, the escape character, and those of the
mark that ends the literal.

Masking looks ahead for marks, so a mark that begins before the place could reach over it. It does
not, if no mark stands within another: the mark that opened the literal lies between.

* `Spot.Inside`: a place inside a comment or string, outside of its marks.
* `MarksApart`: no mark stands within another; `marksApart_webRules`: so in the languages of web
  pages.
* `opens_of_walk`, `closer_of_walk`: what opened a literal, and what ended the one before, lies
  between two places of a source.
* `walk_altered`: masking up to a place inside a literal does not depend on the character there.
* `scan_opaque`: **what is inside comments and strings counts for nothing.**
-/

namespace MarkupIndent.Margin

open Text

/-! ## Places inside literals -/

/-- A place inside a comment or a string: one is open there, and the place belongs neither to the
mark that opened it nor to one that ends it. -/
structure Spot.Inside (s : Spot) (text : List Char) : Prop where
  between : s.left = 0
  opened : s.state ≠ .code
  goesOn : s.state.endsAt s.escapes text = false

section Place

variable {openers : List (List Char × LexicalState)} {escape : Option Char}

/-- Inside a literal a character is blanked, and the literal stays open. -/
theorem Spot.Inside.step {s : Spot} {c : Char} {rest : List Char} (h : s.Inside (c :: rest))
    (hc : c ≠ '\n') (he : escape ≠ some c) :
    s.step openers escape c rest = (⟨' ', false⟩, ⟨s.state, 0, 0⟩) := by
  obtain ⟨state, escapes, left⟩ := s
  obtain ⟨rfl, hopened, hends⟩ := h
  have hescapes : countEscapes escape escapes c = 0 := by simp [countEscapes, he]
  simp only [Spot.step, if_neg hc, if_neg hopened, hends, hescapes, Bool.false_eq_true, if_false]

/-- A character that the closing mark does not have is inside the literal as well. -/
theorem Spot.Inside.altered {s : Spot} {c d : Char} {rest : List Char} (h : s.Inside (c :: rest))
    (hd : d ∉ s.state.closer) : s.Inside (d :: rest) := by
  obtain ⟨state, escapes, left⟩ := s
  refine ⟨h.between, h.opened, ?_⟩
  have hends := h.goesOn
  cases state with
  | code | lineComment => rfl
  | blockComment closer | string closer =>
    cases closer with
    | nil => exact hends
    | cons e closer =>
      have hne : (e == d) = false := beq_eq_false_iff_ne.mpr fun h => hd (h ▸ List.mem_cons_self)
      simp [LexicalState.endsAt, List.isPrefixOf_cons_cons, hne]

end Place

/-! ## Between two places -/

section Between

variable {openers : List (List Char × LexicalState)} {escape : Option Char}

/-- A step leaves at most one character less of a mark. -/
theorem Spot.left_le_step (s : Spot) (c : Char) (rest : List Char) :
    s.left ≤ (s.step openers escape c rest).2.left + 1 := by
  obtain ⟨state, escapes, left⟩ := s
  cases left with
  | zero => exact Nat.zero_le _
  | succ left => exact Nat.le_refl _

/-- What is left of a mark is read before the next mark is looked for. -/
theorem Spot.left_le_walk (s : Spot) (text tail : List Char) :
    s.left ≤ (s.walk openers escape text tail).2.left + text.length := by
  induction text generalizing s with
  | nil => exact Nat.le_refl _
  | cons c rest ih =>
    calc s.left ≤ (s.step openers escape c (rest ++ tail)).2.left + 1 := s.left_le_step c _
      _ ≤ (s.walk openers escape (c :: rest) tail).2.left + rest.length + 1 :=
        Nat.succ_le_succ (ih _)

/-- A mark that is read ends before a later place between marks. -/
theorem Spot.length_le_of_read {s : Spot} {c : Char} {rest tail mark : List Char}
    (hread : (s.step openers escape c (rest ++ tail)).2.left = mark.length - 1)
    (hend : (s.walk openers escape (c :: rest) tail).2.left = 0) :
    mark.length ≤ (c :: rest).length := by
  have hwalk : (s.step openers escape c (rest ++ tail)).2.left ≤
      (s.walk openers escape (c :: rest) tail).2.left + rest.length := Spot.left_le_walk ..
  rw [hread, hend, Nat.zero_add] at hwalk
  exact Nat.le_succ_of_pred_le hwalk

/-- What opens a literal is read from its first character on. -/
theorem Spot.left_step_of_opens {escapes : Nat} {c : Char} {rest : List Char}
    {o : List Char × LexicalState} (hc : c ≠ '\n')
    (hfind : openers.find? (fun o => o.1.isPrefixOf (c :: rest)) = some o) :
    ((⟨.code, escapes, 0⟩ : Spot).step openers escape c rest).2.left = o.1.length - 1 := by
  simp only [Spot.step, if_neg hc, if_true, hfind]

/-- What ends a literal is read from its first character on. -/
theorem Spot.left_step_of_ends {state : LexicalState} {escapes : Nat} {c : Char}
    {rest : List Char} (hc : c ≠ '\n') (hcode : state ≠ .code)
    (hends : state.endsAt escapes (c :: rest) = true) :
    ((⟨state, escapes, 0⟩ : Spot).step openers escape c rest).2.left =
      state.closer.length - 1 := by
  simp only [Spot.step, if_neg hc, if_neg hcode, hends, if_true, LexicalState.closerLength_eq]

/-- **A literal that was not open at an earlier place was opened in between.** -/
theorem opens_of_walk {s : Spot} {text tail : List Char} (hs : s.state = .code)
    (hend : (s.walk openers escape text tail).2.left = 0)
    (hopened : (s.walk openers escape text tail).2.state ≠ .code) :
    ∃ o ∈ openers, o.1 <:+: text := by
  induction text generalizing s with
  | nil => exact absurd hs hopened
  | cons c rest ih =>
    have hlater : (s.step openers escape c (rest ++ tail)).2.state = .code →
        ∃ o ∈ openers, o.1 <:+: c :: rest := by
      intro hcode
      obtain ⟨o, ho, hin⟩ := ih hcode hend hopened
      exact ⟨o, ho, hin.trans (List.suffix_cons c rest).isInfix⟩
    obtain ⟨state, escapes, left⟩ := s
    obtain rfl : state = .code := hs
    cases left with
    | succ left => exact hlater rfl
    | zero =>
      by_cases hc : c = '\n'
      · subst hc
        exact hlater rfl
      cases hfind : openers.find? fun o => o.1.isPrefixOf (c :: (rest ++ tail)) with
      | none => exact hlater (by simp only [Spot.step, if_neg hc, if_true, hfind])
      | some o =>
        have hstands : o.1 <+: c :: rest ++ tail :=
          List.isPrefixOf_iff_prefix.mp (by simpa using List.find?_some hfind)
        have hlength := Spot.length_le_of_read (Spot.left_step_of_opens hc hfind) hend
        exact ⟨o, List.mem_of_find?_eq_some hfind,
          (List.prefix_of_prefix_length_le hstands (List.prefix_append ..) hlength).isInfix⟩

/-- **A literal that is not open any more was ended in between.** -/
theorem closer_of_walk {s : Spot} {text tail : List Char}
    (hend : (s.walk openers escape text tail).2.left = 0) :
    (s.walk openers escape text tail).2.state = s.state ∨
      s.state.closer.length ≤ text.length := by
  induction text generalizing s with
  | nil => exact .inl rfl
  | cons c rest ih =>
    have hlater : (s.step openers escape c (rest ++ tail)).2.state = s.state →
        (s.walk openers escape (c :: rest) tail).2.state = s.state ∨
          s.state.closer.length ≤ (c :: rest).length := by
      intro hsame
      have h := ih (s := (s.step openers escape c (rest ++ tail)).2) hend
      rw [hsame] at h
      exact h.imp_right fun hle => Nat.le_succ_of_le hle
    obtain ⟨state, escapes, left⟩ := s
    cases left with
    | succ left => exact hlater rfl
    | zero =>
      by_cases hc : c = '\n'
      · subst hc
        cases state with
        | lineComment => exact .inr (Nat.zero_le _)
        | code | blockComment closer | string closer => exact hlater rfl
      by_cases hcode : state = .code
      · exact .inr (by simp [hcode, LexicalState.closer])
      cases hends : state.endsAt escapes (c :: (rest ++ tail)) with
      | false => exact hlater (by simp [Spot.step, hc, hcode, hends])
      | true => exact .inr (Spot.length_le_of_read (Spot.left_step_of_ends hc hcode hends) hend)

end Between

/-! ## Marks that stand apart -/

/-- No mark stands within another one. -/
def MarksApart (marks : List (List Char)) : Prop :=
  ∀ m ∈ marks, ∀ q ∈ marks, q <:+: m → q = m

instance (marks : List (List Char)) : Decidable (MarksApart marks) :=
  inferInstanceAs (Decidable (∀ m ∈ marks, ∀ q ∈ marks, q <:+: m → q = m))

/-- A mark no longer than a text stands at its beginning whatever follows it, or never. -/
theorem isPrefixOf_append_congr {mark text : List Char} (h : mark.length ≤ text.length)
    (a b : List Char) : mark.isPrefixOf (text ++ a) = mark.isPrefixOf (text ++ b) := by
  have hwhole : ∀ tail, mark.isPrefixOf (text ++ tail) = true ↔ mark <+: text := fun tail =>
    List.isPrefixOf_iff_prefix.trans
      ⟨fun hm => List.prefix_of_prefix_length_le hm (List.prefix_append ..) h,
        fun hm => hm.trans (List.prefix_append ..)⟩
  rw [Bool.eq_iff_iff, hwhole, hwhole]

/-- A mark longer than the text before a place has all of the text and the character there. -/
theorem covers_of_longer {mark text rest : List Char} {c : Char} (h : mark <+: text ++ c :: rest)
    (hlonger : ¬ mark.length ≤ text.length) : text <+: mark ∧ c ∈ mark := by
  have hmore : text ++ [c] <+: mark := by
    refine List.prefix_of_prefix_length_le ?_ h ?_
    · exact (List.prefix_append_right_inj _).mpr ⟨rest, rfl⟩
    · rw [List.length_append]
      exact Nat.lt_of_not_le hlonger
  exact ⟨(List.prefix_append _ _).trans hmore,
    hmore.subset (List.mem_append_right _ List.mem_cons_self)⟩

section Altered

variable {openers : List (List Char × LexicalState)} {escape : Option Char}

/-- A mark that ends a literal does not reach over a place between marks. -/
theorem length_le_of_closer {state : LexicalState} {escapes : Nat} {x : Char}
    {after tail : List Char} (hx : x ≠ '\n') (hcode : state ≠ .code)
    (hend : ((⟨state, escapes, 0⟩ : Spot).walk openers escape (x :: after) tail).2.left = 0)
    (hstands : state.closer <+: x :: (after ++ tail)) :
    state.closer.length ≤ (x :: after).length := by
  have hbegins := List.isPrefixOf_iff_prefix.mpr hstands
  have hread : state.endsAt escapes (x :: (after ++ tail)) = true →
      state.closer.length ≤ (x :: after).length := fun hends =>
    Spot.length_le_of_read (Spot.left_step_of_ends hx hcode hends) hend
  cases state with
  | code | lineComment => exact Nat.zero_le _
  | blockComment closer => exact hread hbegins
  | string closer =>
    -- Only a mark of one character can be escaped, and that one ends where it begins.
    by_cases hsingle : closer.length ≤ 1
    · exact hsingle.trans (Nat.succ_le_succ (Nat.zero_le _))
    · refine hread ?_
      rw [LexicalState.endsAt, isEscaped, decide_eq_false hsingle]
      exact Bool.and_eq_true_iff.mpr ⟨hbegins, rfl⟩

variable (ho : MarksApart (openers.map Prod.fst))
include ho

/-- A mark that opens a literal does not reach over a place between marks. -/
theorem length_le_of_opener {escapes : Nat} {x : Char} {after tail mark : List Char} (hx : x ≠ '\n')
    (hend : ((⟨.code, escapes, 0⟩ : Spot).walk openers escape (x :: after) tail).2.left = 0)
    (hm : mark ∈ openers.map Prod.fst) (hstands : mark <+: x :: (after ++ tail)) :
    mark.length ≤ (x :: after).length := by
  obtain ⟨o, hmem, rfl⟩ := List.mem_map.mp hm
  cases hfind : openers.find? fun o => o.1.isPrefixOf (x :: (after ++ tail)) with
  | none =>
    exact absurd (List.isPrefixOf_iff_prefix.mpr hstands) (List.find?_eq_none.mp hfind o hmem)
  | some found =>
    -- The mark that is read may be another one, but of two at one place none is longer.
    have hread := Spot.length_le_of_read (Spot.left_step_of_opens hx hfind) hend
    by_contra hlong
    have hfound : found.1 <+: o.1 := List.prefix_of_prefix_length_le
      (List.isPrefixOf_iff_prefix.mp (by simpa using List.find?_some hfind)) hstands
      (hread.trans (Nat.le_of_not_le hlong))
    have hsame := ho _ hm _ (List.mem_map_of_mem (List.mem_of_find?_eq_some hfind)) hfound.isInfix
    exact hlong (hsame ▸ hread)

/-- **A mark that is looked for before a place inside a literal does not reach over the place**,
whatever character stands there that the literal does not end with. -/
theorem isPrefixOf_of_inside {s : Spot} {x c d : Char} {after rest mark : List Char}
    (hx : x ≠ '\n')
    (hin : (s.walk openers escape (x :: after) (c :: rest)).2.Inside (c :: rest))
    (hd : d ∉ (s.walk openers escape (x :: after) (c :: rest)).2.state.closer)
    (hm : mark ∈ s.tested openers) :
    mark.isPrefixOf (x :: after ++ c :: rest) = mark.isPrefixOf (x :: after ++ d :: rest) := by
  by_cases hlength : mark.length ≤ (x :: after).length
  · exact isPrefixOf_append_congr hlength _ _
  obtain ⟨state, escapes, left⟩ := s
  obtain rfl : left = 0 := by
    by_contra hne
    simp [Spot.tested, hne] at hm
  rw [Bool.eq_iff_iff, List.isPrefixOf_iff_prefix, List.isPrefixOf_iff_prefix]
  by_cases hcode : state = .code
  · subst hcode
    have hm : mark ∈ openers.map Prod.fst := hm
    refine iff_of_false (fun h => hlength (length_le_of_opener ho hx hin.between hm h)) fun h => ?_
    -- The literal was opened in between, by a mark within this one.
    obtain ⟨o, hmem, hwithin⟩ := opens_of_walk rfl hin.between hin.opened
    have hmark := hwithin.trans (covers_of_longer h hlength).1.isInfix
    have hsame := ho _ hm _ (List.mem_map_of_mem hmem) hmark
    exact hlength (hsame ▸ hwithin.length_le)
  · obtain rfl : mark = state.closer := by simpa [Spot.tested, hcode] using hm
    refine iff_of_false (fun h => hlength (length_le_of_closer hx hcode hin.between h)) fun h => ?_
    -- The literal is still the one that was open before, and the new character does not end it.
    rcases closer_of_walk hin.between with hstate | hclosed
    · exact hd (hstate ▸ (covers_of_longer h hlength).2)
    · exact hlength hclosed

/-- **Masking up to a place inside a literal** does not depend on the character there. -/
theorem walk_altered {s : Spot} {before rest : List Char} {c d : Char}
    (hin : (s.walk openers escape before (c :: rest)).2.Inside (c :: rest))
    (hd : d ∉ (s.walk openers escape before (c :: rest)).2.state.closer) :
    s.walk openers escape before (c :: rest) = s.walk openers escape before (d :: rest) := by
  refine Spot.walk_congr fun earlier x after htext hx mark hm => ?_
  rw [htext, Spot.walk_append] at hin hd
  exact isPrefixOf_of_inside ho hx hin hd hm

end Altered

/-! ## Sources -/

/-- The marks of a language that open a construct. -/
def LexicalRules.marks (rules : LexicalRules) : List (List Char) :=
  rules.lineComments ++ rules.blockComments.map Prod.fst ++ rules.strings

/-- The languages of web pages, and the marks that a language has by default. -/
def webRules : List LexicalRules :=
  [scriptRules, styleRules, sassRules, {}]

theorem marksApart_openers {rules : LexicalRules} (h : MarksApart rules.marks) :
    MarksApart (rules.openers.map Prod.fst) := by
  have hsub : ∀ m ∈ rules.openers.map Prod.fst, m ∈ rules.marks := by
    intro m hm
    obtain ⟨o, ho, rfl⟩ := List.mem_map.mp hm
    rw [LexicalRules.marks, List.append_assoc, List.mem_append, List.mem_append]
    rcases LexicalRules.mem_openers.mp ho with ⟨m, h, -, rfl⟩ | ⟨q, h, -, -, rfl⟩ | ⟨m, h, -, rfl⟩
    · exact .inl h
    · exact .inr (.inl (List.mem_map_of_mem h))
    · exact .inr (.inr h)
  exact fun m hm q hq => h m (hsub m hm) q (hsub q hq)

theorem marksApart_webRules : ∀ rules ∈ webRules, MarksApart rules.marks := by
  decide

/-- A place of a source is inside a comment or a string. -/
def LexicalRules.Inside (rules : LexicalRules) (source : List Char) (i : Nat) : Prop :=
  (rules.spotAt source i).Inside (source.drop i)

/-- The mark that ends the comment or string that is open at a place of a source. -/
def LexicalRules.closerAt (rules : LexicalRules) (source : List Char) (i : Nat) : List Char :=
  (rules.spotAt source i).state.closer

section Source

variable {rules : LexicalRules}

/-- A source with a place inside a literal, split at the place. -/
theorem exists_split {source : List Char} {i : Nat} {c : Char} (hi : source[i]? = some c)
    (hin : rules.Inside source i) :
    ∃ before rest, before.length = i ∧ source = before ++ c :: rest ∧
      (∀ d, source.set i d = before ++ d :: rest) ∧
      (Spot.start.walk rules.openers rules.escape before (c :: rest)).2.Inside (c :: rest) ∧
      rules.closerAt source i =
        (Spot.start.walk rules.openers rules.escape before (c :: rest)).2.state.closer := by
  obtain ⟨hlt, rfl⟩ := List.getElem?_eq_some_iff.mp hi
  have hdrop := List.drop_eq_getElem_cons hlt
  unfold LexicalRules.closerAt LexicalRules.Inside LexicalRules.spotAt at *
  rw [hdrop] at hin ⊢
  refine ⟨source.take i, source.drop (i + 1), List.length_take_of_le hlt.le, ?_, fun d => ?_, hin,
    rfl⟩
  · rw [← hdrop, List.take_append_drop]
  · rw [List.set_eq_take_append_cons_drop, if_pos hlt]

/-- A character inside a literal is blanked, and the literal stays open behind it. -/
theorem blanked_inside {before rest : List Char} {c : Char}
    (hin : (Spot.start.walk rules.openers rules.escape before (c :: rest)).2.Inside (c :: rest))
    (hc : c ≠ '\n') (hce : rules.escape ≠ some c) :
    rules.blanked (before ++ c :: rest) =
      (Spot.start.walk rules.openers rules.escape before (c :: rest)).1 ++ ⟨' ', false⟩ ::
        Spot.mask rules.openers rules.escape
          ⟨(Spot.start.walk rules.openers rules.escape before (c :: rest)).2.state, 0, 0⟩ rest := by
  rw [LexicalRules.blanked_append, Spot.mask_cons, hin.step hc hce]

/-- **A character inside a literal is blanked like any other one.** -/
theorem blanked_altered (hr : MarksApart rules.marks) {source : List Char} {i : Nat} {c d : Char}
    (hi : source[i]? = some c) (hin : rules.Inside source i) (hc : c ≠ '\n')
    (hce : rules.escape ≠ some c) (hd : d ≠ '\n') (hde : rules.escape ≠ some d)
    (hcloser : d ∉ rules.closerAt source i) :
    (rules.blanked source)[i]? = some ⟨' ', false⟩ ∧
      rules.blanked (source.set i d) = rules.blanked source := by
  obtain ⟨before, rest, hlength, rfl, hset, hspot, hmark⟩ := exists_split hi hin
  rw [hmark] at hcloser
  have hwalk := walk_altered (marksApart_openers hr) hspot hcloser
  have hspot' := hwalk ▸ hspot.altered hcloser
  have hblanked := blanked_inside hspot hc hce
  refine ⟨?_, by rw [hset, hblanked, blanked_inside hspot' hd hde, hwalk]⟩
  rw [hblanked, List.getElem?_append_right (by rw [Spot.length_walk, hlength]), Spot.length_walk,
    hlength, Nat.sub_self]
  rfl

end Source

/-- **What is inside comments and strings counts for nothing.** In the languages of web pages, a
character inside a comment or a string is blanked, and it can be replaced by another one without any
change to the records of the lines, if neither is a line end or the escape character, and the new
one is not in the mark that ends the comment or string. -/
theorem scan_opaque {rules : LexicalRules} (hr : rules ∈ webRules) {source : List Char} {i : Nat}
    {c d : Char} (hi : source[i]? = some c) (hin : rules.Inside source i)
    (hc : c ≠ '\n') (hce : rules.escape ≠ some c) (hd : d ≠ '\n') (hde : rules.escape ≠ some d)
    (hcloser : d ∉ rules.closerAt source i) :
    (rules.blanked source)[i]? = some ⟨' ', false⟩ ∧
      scan rules (source.set i d) = scan rules source := by
  obtain ⟨hblank, h⟩ :=
    blanked_altered (marksApart_webRules rules hr) hi hin hc hce hd hde hcloser
  refine ⟨hblank, ?_⟩
  unfold LexicalRules.blanked at h
  simp only [scan, h]

/-- A string with an escaped quote and a bracket in it, and a bracket on the next line. -/
def escapedQuote : List Char :=
  "f('it\\'s \x7b')\n]".toList

/-- The string goes on at the escaped quote, and a bracket written in its place is not counted. -/
theorem scan_opaque_escaped :
    escapedQuote[6]? = some '\'' ∧ scriptRules.Inside escapedQuote 6 ∧
    scriptRules.closerAt escapedQuote 6 = ['\''] ∧
    escapedQuote.set 6 '[' = "f('it\\[s \x7b')\n]".toList ∧
    (scriptRules.blanked escapedQuote)[6]? = some ⟨' ', false⟩ ∧
    scan scriptRules (escapedQuote.set 6 '[') = scan scriptRules escapedQuote := by
  have hspot : scriptRules.spotAt escapedQuote 6 = ⟨.string ['\''], 1, 0⟩ := by
    rw [LexicalRules.spotAt, openers_scriptRules]
    decide +kernel
  have hquote : escapedQuote[6]? = some '\'' := by decide +kernel
  have hin : scriptRules.Inside escapedQuote 6 := by
    rw [LexicalRules.Inside, hspot]
    exact ⟨rfl, by decide, by decide +kernel⟩
  have hcloser : scriptRules.closerAt escapedQuote 6 = ['\''] := by
    rw [LexicalRules.closerAt, hspot]
    rfl
  exact ⟨hquote, hin, hcloser, by decide +kernel,
    scan_opaque List.mem_cons_self hquote hin (by decide) (by decide) (by decide) (by decide)
      (hcloser ▸ by decide)⟩

end MarkupIndent.Margin
