import Mathlib.Logic.Relation
import MarkupIndent.Proofs.Lookahead
import MarkupIndent.Proofs.Regrown

/-!
# The beginning of a text is read the same

Growing a tree up to a place does not depend on the text behind the place, as long as a run of
character data begins there and no quote that opened no string finds its end in that text.

* `OpenTree.onto`: a growing tree over another rest.
* `lead`, `step_eq`: what a text begins with decides what a step reads.
* `step_onto`: a step over markup, whatever follows it.
* `Prose`: character data, with what follows it.
* `OpenTree.Becomes`: a tree that grows into another by steps.
* `exists_steps_of_lt`: the step that reads a token.
* `becomes_onto`: **the same steps grow the same tree** over another rest.
-/

namespace MarkupIndent.Markup

open Text

/-- A sign that ends a piece of markup. -/
def Closing (d : Char) : Prop :=
  d = '}' ∨ d = '>'

namespace OpenTree

/-- The growing tree over another rest. -/
def onto (t : OpenTree) (rest : List Char) : OpenTree :=
  { t with reading := t.reading.onto rest }

@[simp] theorem onto_reading (t : OpenTree) (rest : List Char) :
    (t.onto rest).reading = t.reading.onto rest := rfl

@[simp] theorem onto_frames (t : OpenTree) (rest : List Char) :
    (t.onto rest).frames = t.frames := rfl

@[simp] theorem onto_done (t : OpenTree) (rest : List Char) : (t.onto rest).done = t.done := rfl

/-! ## Pieces of markup -/

variable {t u : OpenTree}

theorem comment_onto (hs : t.reading.startsWith ['<', '!', '-', '-'] = true)
    (h : t.comment = .ok u) : ∃ a, t.reading.rest = a ++ '>' :: u.reading.rest ∧
      ∀ y, (t.onto (a ++ '>' :: y)).comment = .ok (u.onto y) := by
  unfold comment at h
  split at h
  · cases h
  · next n hn =>
    cases h
    obtain ⟨rest, hrest⟩ := List.isPrefixOf_iff_prefix.mp hs
    have hn : commentEnd? rest = some n := by
      rw [← hrest] at hn
      exact hn
    obtain ⟨hle, hend⟩ := commentEnd?_spec hn
    have hsplit : rest.take (n + 3) = rest.take n ++ ['-', '-'] ++ ['>'] := by
      rw [List.take_add, hend, List.append_assoc]
      rfl
    have htake : t.reading.rest.take (n + 7) =
        '<' :: '!' :: '-' :: '-' :: (rest.take n ++ ['-', '-']) ++ ['>'] := by
      rw [List.cons_append, List.cons_append, List.cons_append, List.cons_append, ← hsplit, ← hrest]
      rfl
    refine ⟨'<' :: '!' :: '-' :: '-' :: (rest.take n ++ ['-', '-']), ?_, fun y => ?_⟩
    · have := List.take_append_drop (n + 7) t.reading.rest
      rw [htake, List.append_assoc] at this
      exact this.symm
    · have hfound : commentEnd? (rest.take n ++ ['-', '-'] ++ '>' :: y) = some n := by
        have hrest' := List.take_append_drop (n + 3) rest
        rw [hsplit, List.append_assoc, List.singleton_append] at hrest'
        rw [commentEnd?_eq] at hn ⊢
        rw [← hrest'] at hn
        refine search?_stop (stops_isPrefixOf (by decide)) ?_ _ y hn
        rw [List.length_append, List.length_take]
        omega
      have hlen : n + 7 ≤ t.reading.rest.length := by
        rw [← hrest]
        simp only [List.length_append, List.length_cons, List.length_nil]
        omega
      have hemit := Reading.emit_onto .comment hlen y
      rw [htake, List.append_assoc, List.singleton_append] at hemit
      unfold comment
      simp only [onto_reading, Reading.onto_rest, List.cons_append, List.drop_succ_cons,
        List.drop_zero, hfound]
      rw [List.cons_append, List.cons_append, List.cons_append, List.cons_append] at hemit
      rw [hemit]
      rfl

theorem mustache_onto (h : t.mustache = .ok u) : ∃ a, t.reading.rest = a ++ '}' :: u.reading.rest ∧
    ∀ y, Quiet u.reading.tokens u.reading.rest y →
      (t.onto (a ++ '}' :: y)).mustache = .ok (u.onto y) := by
  obtain ⟨⟨m, r⟩, h1, h⟩ := bind_eq_ok.mp h
  cases h
  obtain ⟨a, ha, hall⟩ := Reading.readMustache_onto h1
  exact ⟨a, ha, fun y hy => bind_eq_ok.mpr ⟨_, hall y hy, rfl⟩⟩

theorem openBlock_onto (h : t.openBlock = .ok u) :
    ∃ a, t.reading.rest = a ++ '}' :: u.reading.rest ∧
      ∀ y, Quiet u.reading.tokens u.reading.rest y →
        (t.onto (a ++ '}' :: y)).openBlock = .ok (u.onto y) := by
  obtain ⟨⟨b, r⟩, h1, h⟩ := bind_eq_ok.mp h
  cases h
  obtain ⟨a, ha, hall⟩ := Reading.readBlockTag_onto h1
  exact ⟨a, ha, fun y hy => bind_eq_ok.mpr ⟨_, hall y hy, rfl⟩⟩

theorem nextBranch_onto (h : t.nextBranch = .ok u) :
    ∃ a, t.reading.rest = a ++ '}' :: u.reading.rest ∧
      ∀ y, Quiet u.reading.tokens u.reading.rest y →
        (t.onto (a ++ '}' :: y)).nextBranch = .ok (u.onto y) := by
  unfold nextBranch at h
  split at h
  · cases h
  · next keyword opened finished tag before frames hframes =>
    obtain ⟨⟨b, r⟩, h1, h⟩ := bind_eq_ok.mp h
    cases h
    obtain ⟨a, ha, hall⟩ := Reading.readBlockTag_onto h1
    refine ⟨a, ha, fun y hy => ?_⟩
    simp only [nextBranch, onto_frames, hframes]
    exact bind_eq_ok.mpr ⟨_, hall y hy, rfl⟩
  · cases h

theorem endBlock_onto (h : t.endBlock = .ok u) :
    ∃ a, t.reading.rest = a ++ '}' :: u.reading.rest ∧
      ∀ y, Quiet u.reading.tokens u.reading.rest y →
        (t.onto (a ++ '}' :: y)).endBlock = .ok (u.onto y) := by
  unfold endBlock at h
  split at h
  · cases h
  · next keyword opened finished tag before frames hframes =>
    obtain ⟨⟨b, r⟩, h1, h⟩ := bind_eq_ok.mp h
    simp only at h
    split at h
    · cases h
    · next hkeyword =>
      cases h
      obtain ⟨a, ha, hall⟩ := Reading.readBlockTag_onto h1
      refine ⟨a, ha, fun y hy => ?_⟩
      simp only [endBlock, onto_frames, hframes]
      exact bind_eq_ok.mpr ⟨_, hall y hy, if_neg hkeyword⟩
  · cases h

theorem closeElement_onto (h : t.closeElement = .ok u) :
    ∃ a, t.reading.rest = a ++ '>' :: u.reading.rest ∧
      ∀ y, (t.onto (a ++ '>' :: y)).closeElement = .ok (u.onto y) := by
  unfold closeElement at h
  split at h
  · cases h
  · next name tag opened before frames hframes =>
    obtain ⟨⟨e, r⟩, h1, h⟩ := bind_eq_ok.mp h
    cases h
    obtain ⟨a, ha, hall⟩ := Reading.readEndTag_onto h1
    refine ⟨a, ha, fun y => ?_⟩
    simp only [closeElement, onto_frames, hframes]
    exact bind_eq_ok.mpr ⟨_, hall y, rfl⟩
  · cases h

theorem readsMarkup_raw {kind : RawKind} {tag : StartTag} {name : List Char} {r : Reading}
    (hname : Inline name) (h : t.raw kind tag name r = .ok u) :
    Reading.ReadsMarkup r u.reading := by
  unfold raw at h
  split at h
  · cases h
  · next n hn =>
    obtain ⟨⟨e, s⟩, h1, h⟩ := bind_eq_ok.mp h
    cases h
    exact (Reading.readsMarkup_run .rawText (fun _ h => h) (by decide) r).trans
      (Reading.reads_readEndTag (Reading.startsWith_run hn) hname h1).1.1

theorem raw_onto {kind : RawKind} {tag : StartTag} {name : List Char} {r : Reading}
    (h : t.raw kind tag name r = .ok u) :
    ∃ a, r.rest = a ++ '>' :: u.reading.rest ∧
      ∀ rest y, (t.onto rest).raw kind tag name (r.onto (a ++ '>' :: y)) = .ok (u.onto y) := by
  unfold raw at h
  split at h
  · cases h
  · next n hn =>
    obtain ⟨⟨e, s⟩, h1, h⟩ := bind_eq_ok.mp h
    cases h
    obtain ⟨hle, -⟩ := rawEnd?_spec hn
    obtain ⟨a, ha, hall⟩ := Reading.readEndTag_onto h1
    rw [Reading.rest_run] at ha
    have hrest : r.rest = r.rest.take n ++ a ++ '>' :: s.rest := by
      rw [List.append_assoc, ← ha, List.take_append_drop]
    refine ⟨r.rest.take n ++ a, hrest, fun rest y => ?_⟩
    have hfound : rawEnd? kind.name (r.rest.take n ++ a ++ '>' :: y) = some n := by
      rw [rawEnd?_eq] at hn ⊢
      rw [hrest] at hn
      refine search?_stop (stops_closesRaw kind) ?_ _ y hn
      rw [List.length_append, List.length_take]
      omega
    unfold raw
    simp only [Reading.onto_rest, hfound]
    rw [List.append_assoc, Reading.run_onto none .rawText hle]
    exact bind_eq_ok.mpr ⟨_, hall y, rfl⟩

theorem openElement_onto (hs : t.reading.startsWith ['<'] = true)
    (hn : tagNameLength t.reading.rest.tail ≠ 0) (h : t.openElement = .ok u) :
    ∃ a, t.reading.rest = a ++ '>' :: u.reading.rest ∧
      ∀ y, Quiet u.reading.tokens u.reading.rest y →
        (t.onto (a ++ '>' :: y)).openElement = .ok (u.onto y) := by
  obtain ⟨⟨tag, name, r⟩, h1, h⟩ := bind_eq_ok.mp h
  obtain ⟨-, hname, -⟩ := Reading.reads_readStartTag hs hn h1
  obtain ⟨a, ha, hall⟩ := Reading.readStartTag_onto h1
  have hopen : ∀ y, Quiet r.tokens r.rest y → (t.onto (a ++ '>' :: y)).reading.readStartTag =
      .ok (tag, name, r.onto y) := hall
  unfold openElement
  simp only at h
  split at h
  · next kind hkind =>
    split at h
    · next hc =>
      cases h
      refine ⟨a, ha, fun y hy => bind_eq_ok.mpr ⟨_, hopen y hy, ?_⟩⟩
      simp only [hkind, if_pos hc]
      rfl
    · next hc =>
      obtain ⟨b, hb, hraw⟩ := raw_onto h
      refine ⟨a ++ '>' :: b, by rw [ha, hb, List.append_assoc, List.cons_append], fun y hy => ?_⟩
      have hquiet : Quiet r.tokens r.rest (b ++ '>' :: y) := by
        rw [hb]
        exact (hy.append (by decide) b).mono (readsMarkup_raw hname h).extends
      rw [List.append_assoc, List.cons_append]
      refine bind_eq_ok.mpr ⟨_, hopen _ hquiet, ?_⟩
      simp only [hkind, if_neg hc]
      exact hraw _ y
  · next hkind =>
    split at h
    · next hc =>
      cases h
      refine ⟨a, ha, fun y hy => bind_eq_ok.mpr ⟨_, hopen y hy, ?_⟩⟩
      simp only [hkind, if_pos hc]
      rfl
    · next hc =>
      cases h
      refine ⟨a, ha, fun y hy => bind_eq_ok.mpr ⟨_, hopen y hy, ?_⟩⟩
      simp only [hkind, if_neg hc]
      rfl

/-! ## What a step begins with -/

end OpenTree

/-- What a text may begin with. -/
inductive Lead where
  | closeElement | nextBranch | endBlock | comment | openElement | openBlock | mustache | text

/-- What a text begins with. -/
def lead (text : List Char) : Lead :=
  if ['<', '/'].isPrefixOf text then .closeElement
  else if ['{', ':'].isPrefixOf text then .nextBranch
  else if ['{', '/'].isPrefixOf text then .endBlock
  else if ['<', '!', '-', '-'].isPrefixOf text then .comment
  else if ['<'].isPrefixOf text && tagNameLength text.tail != 0 then .openElement
  else if ['{', '#'].isPrefixOf text then .openBlock
  else if ['{'].isPrefixOf text then .mustache
  else .text

/-- The signs that a text begins with. -/
def Lead.Begins : Lead → List Char → Prop
  | .closeElement, rest => ['<', '/'].isPrefixOf rest = true
  | .nextBranch, rest => ['{', ':'].isPrefixOf rest = true
  | .endBlock, rest => ['{', '/'].isPrefixOf rest = true
  | .comment, rest => ['<', '!', '-', '-'].isPrefixOf rest = true
  | .openElement, rest => ['<'].isPrefixOf rest = true ∧ tagNameLength rest.tail ≠ 0
  | .openBlock, rest => ['{', '#'].isPrefixOf rest = true
  | .mustache, rest => ['{'].isPrefixOf rest = true
  | .text, rest => endsText rest = false

/-- Where markup begins, one of its signs stands. -/
theorem sign_of_endsText {text : List Char} (h : endsText text = true) :
    ['<', '/'].isPrefixOf text = true ∨ ['<', '!', '-', '-'].isPrefixOf text = true ∨
      (['<'].isPrefixOf text && tagNameLength text.tail != 0) = true ∨
      ['{'].isPrefixOf text = true := by
  cases text with
  | nil => cases h
  | cons c rest =>
    rw [endsText, Bool.or_eq_true, Bool.and_eq_true, beq_iff_eq, beq_iff_eq] at h
    rcases h with rfl | ⟨rfl, h⟩
    · exact .inr (.inr (.inr rfl))
    · cases rest with
      | nil => cases h
      | cons c rest =>
        rw [opensMarkup_cons, Bool.or_eq_true, Bool.or_eq_true, Bool.and_eq_true, beq_iff_eq,
          beq_iff_eq] at h
        rcases h with (rfl | ⟨rfl, h⟩) | h
        · exact .inl rfl
        · refine .inr (.inl ?_)
          rw [List.isPrefixOf_cons_cons, List.isPrefixOf_cons_cons, h]
          rfl
        · refine .inr (.inr (.inl ?_))
          have : tagNameLength (c :: rest) ≠ 0 := by
            rw [tagNameLength, if_pos h]
            omega
          simpa using this

theorem begins_lead (text : List Char) : (lead text).Begins text := by
  unfold lead
  split
  · assumption
  next h1 =>
  split
  · assumption
  split
  · assumption
  split
  · assumption
  next h4 =>
  split
  · next h5 => simpa [Lead.Begins] using h5
  next h5 =>
  split
  · assumption
  split
  · assumption
  next h7 =>
  rw [Lead.Begins, Bool.eq_false_iff]
  intro hends
  rcases sign_of_endsText hends with h | h | h | h
  · exact h1 h
  · exact h4 h
  · exact h5 h
  · exact h7 h

/-- What a text begins with does not depend on what follows a closing sign. -/
theorem stops_lead {d : Char} (hd : Closing d) : Stops d lead := by
  have hsign : ∀ word : List Char, '}' ∉ word.dropLast → '>' ∉ word.dropLast →
      Stops d word.isPrefixOf := by
    intro word h1 h2
    rcases hd with rfl | rfl
    · exact stops_isPrefixOf h1
    · exact stops_isPrefixOf h2
  have hname : Stops d tagNameLength := by
    rcases hd with rfl | rfl <;> exact stops_tagNameLength (by decide) (by decide)
  intro a x y
  have htail : (['<'].isPrefixOf (a ++ d :: x) && tagNameLength (a ++ d :: x).tail != 0) =
      (['<'].isPrefixOf (a ++ d :: y) && tagNameLength (a ++ d :: y).tail != 0) := by
    cases a with
    | nil => rcases hd with rfl | rfl <;> rfl
    | cons c a =>
      rw [hsign _ (by decide) (by decide) (c :: a) x y, List.cons_append, List.cons_append,
        List.tail_cons, List.tail_cons, hname a x y]
  unfold lead
  rw [htail, hsign ['<', '/'] (by decide) (by decide) a x y,
    hsign ['{', ':'] (by decide) (by decide) a x y, hsign ['{', '/'] (by decide) (by decide) a x y,
    hsign ['<', '!', '-', '-'] (by decide) (by decide) a x y,
    hsign ['{', '#'] (by decide) (by decide) a x y, hsign ['{'] (by decide) (by decide) a x y]

namespace OpenTree

variable {t u : OpenTree}

/-- The step over what a text begins with. -/
def stepBy (t : OpenTree) : Lead → Except ReadError OpenTree
  | .closeElement => t.closeElement
  | .nextBranch => t.nextBranch
  | .endBlock => t.endBlock
  | .comment => t.comment
  | .openElement => t.openElement
  | .openBlock => t.openBlock
  | .mustache => t.mustache
  | .text => .ok t.text

theorem step_eq (t : OpenTree) : t.step = t.stepBy (lead t.reading.rest) := by
  unfold lead
  simp only [apply_ite t.stepBy]
  rfl

/-! ## Steps over markup -/

/-- **A step over markup** does not depend on what follows the sign that ends it. -/
theorem step_onto (hr : endsText t.reading.rest = true) (h : t.step = .ok u) :
    ∃ a d, Closing d ∧ t.reading.rest = a ++ d :: u.reading.rest ∧
      ∀ y, Quiet u.reading.tokens u.reading.rest y →
        (t.onto (a ++ d :: y)).step = .ok (u.onto y) := by
  have hbegins := begins_lead t.reading.rest
  rw [step_eq] at h
  suffices hby : ∃ a d, Closing d ∧ t.reading.rest = a ++ d :: u.reading.rest ∧
      ∀ y, Quiet u.reading.tokens u.reading.rest y →
        (t.onto (a ++ d :: y)).stepBy (lead t.reading.rest) = .ok (u.onto y) by
    obtain ⟨a, d, hd, ha, hall⟩ := hby
    refine ⟨a, d, hd, ha, fun y hy => ?_⟩
    rw [step_eq, onto_reading, Reading.onto_rest, stops_lead hd a y u.reading.rest, ← ha]
    exact hall y hy
  generalize lead t.reading.rest = first at h hbegins ⊢
  cases first with
  | closeElement =>
    obtain ⟨a, ha, hall⟩ := closeElement_onto h
    exact ⟨a, '>', .inr rfl, ha, fun y _ => hall y⟩
  | nextBranch =>
    obtain ⟨a, ha, hall⟩ := nextBranch_onto h
    exact ⟨a, '}', .inl rfl, ha, hall⟩
  | endBlock =>
    obtain ⟨a, ha, hall⟩ := endBlock_onto h
    exact ⟨a, '}', .inl rfl, ha, hall⟩
  | comment =>
    obtain ⟨a, ha, hall⟩ := comment_onto hbegins h
    exact ⟨a, '>', .inr rfl, ha, fun y _ => hall y⟩
  | openElement =>
    obtain ⟨a, ha, hall⟩ := openElement_onto hbegins.1 hbegins.2 h
    exact ⟨a, '>', .inr rfl, ha, hall⟩
  | openBlock =>
    obtain ⟨a, ha, hall⟩ := openBlock_onto h
    exact ⟨a, '}', .inl rfl, ha, hall⟩
  | mustache =>
    obtain ⟨a, ha, hall⟩ := mustache_onto h
    exact ⟨a, '}', .inl rfl, ha, hall⟩
  | text =>
    rw [Lead.Begins, hr] at hbegins
    cases hbegins

theorem readsMarkup_closeElement (hs : t.reading.startsWith ['<', '/'] = true) (hfits : t.Fits)
    (h : t.closeElement = .ok u) : Reading.ReadsMarkup t.reading u.reading := by
  obtain ⟨lo, hframes, -⟩ := hfits
  unfold closeElement at h
  split at h
  · cases h
  · next heq =>
    rw [heq] at hframes
    obtain ⟨⟨e, r⟩, h2, h⟩ := bind_eq_ok.mp h
    cases h
    exact (Reading.reads_readEndTag hs hframes.1 h2).1.1
  · cases h

theorem readsMarkup_nextBranch (hs : t.reading.startsWith ['{', ':'] = true)
    (h : t.nextBranch = .ok u) : Reading.ReadsMarkup t.reading u.reading := by
  unfold nextBranch at h
  split at h
  · cases h
  · obtain ⟨⟨b, r⟩, h3, h⟩ := bind_eq_ok.mp h
    cases h
    exact (Reading.reads_readBlockTag rfl hs h3).1
  · cases h

theorem readsMarkup_endBlock (hs : t.reading.startsWith ['{', '/'] = true)
    (h : t.endBlock = .ok u) : Reading.ReadsMarkup t.reading u.reading := by
  unfold endBlock at h
  split at h
  · cases h
  · obtain ⟨⟨b, r⟩, h4, h⟩ := bind_eq_ok.mp h
    simp only at h
    split at h
    · cases h
    · cases h
      exact (Reading.reads_readBlockTag rfl hs h4).1
  · cases h

theorem readsMarkup_comment (hs : t.reading.startsWith ['<', '!', '-', '-'] = true)
    (h : t.comment = .ok u) : Reading.ReadsMarkup t.reading u.reading := by
  unfold comment at h
  split at h
  · cases h
  · next n hn =>
    cases h
    obtain ⟨hle, hsolid⟩ := solid_comment hs hn
    exact Reading.readsMarkup_emit hle hsolid (by decide)

theorem readsMarkup_openElement (hs : t.reading.startsWith ['<'] = true)
    (hn : tagNameLength t.reading.rest.tail ≠ 0) (h : t.openElement = .ok u) :
    Reading.ReadsMarkup t.reading u.reading := by
  obtain ⟨⟨tag, name, r⟩, h6, h⟩ := bind_eq_ok.mp h
  obtain ⟨⟨htag, -⟩, hname, -⟩ := Reading.reads_readStartTag hs hn h6
  simp only at h
  split at h
  · split at h
    · cases h
      exact htag
    · exact htag.trans (readsMarkup_raw hname h)
  · split at h <;> cases h <;> exact htag

/-- **A step over markup reads no character data.** -/
theorem readsMarkup_step (hr : endsText t.reading.rest = true) (hfits : t.Fits)
    (h : t.step = .ok u) : Reading.ReadsMarkup t.reading u.reading := by
  have hbegins := begins_lead t.reading.rest
  rw [step_eq] at h
  generalize lead t.reading.rest = first at h hbegins
  cases first with
  | closeElement => exact readsMarkup_closeElement hbegins hfits h
  | nextBranch => exact readsMarkup_nextBranch hbegins h
  | endBlock => exact readsMarkup_endBlock hbegins h
  | comment => exact readsMarkup_comment hbegins h
  | openElement => exact readsMarkup_openElement hbegins.1 hbegins.2 h
  | openBlock =>
    obtain ⟨⟨b, r⟩, h7, h⟩ := bind_eq_ok.mp h
    cases h
    exact (Reading.reads_readBlockTag rfl hbegins h7).1
  | mustache =>
    obtain ⟨⟨m, r⟩, h8, h⟩ := bind_eq_ok.mp h
    cases h
    exact (Reading.reads_readMustache hbegins h8).1
  | text =>
    rw [Lead.Begins, hr] at hbegins
    cases hbegins

/-! ## Character data -/

end OpenTree

/-- No sign of markup begins in a text, with what follows it. -/
def Prose : List Char → List Char → Prop
  | [], _ => True
  | c :: text, after => endsText (c :: (text ++ after)) = false ∧ Prose text after

theorem prose_append {x y z : List Char} : Prose (x ++ y) z ↔ Prose x (y ++ z) ∧ Prose y z := by
  induction x with
  | nil => simp [Prose]
  | cons c x ih => rw [List.cons_append, Prose, Prose, ih, List.append_assoc, and_assoc]

/-- A text without the signs that markup begins with. -/
theorem prose_of_not_mem {text : List Char} (hlt : '<' ∉ text) (hbrace : '{' ∉ text)
    (after : List Char) : Prose text after := by
  induction text with
  | nil => trivial
  | cons c text ih =>
    rw [List.mem_cons, not_or] at hlt hbrace
    refine ⟨?_, ih hlt.2 hbrace.2⟩
    rw [endsText, beq_eq_false_iff_ne.mpr (Ne.symm hbrace.1),
      beq_eq_false_iff_ne.mpr (Ne.symm hlt.1)]
    rfl

/-- What follows a sign that is no part of a longer one does not matter. -/
theorem prose_onto {d : Char} (hd : Stops d endsText) {x a y : List Char}
    (h : Prose x (a ++ d :: y)) (z : List Char) : Prose x (a ++ d :: z) := by
  induction x with
  | nil => trivial
  | cons c x ih =>
    refine ⟨?_, ih h.2⟩
    have := hd (c :: (x ++ a)) z y
    rw [List.cons_append, List.cons_append, List.append_assoc, List.append_assoc] at this
    exact this.trans h.1

/-- Character data ends with the text or where markup begins. -/
def Ends (after : List Char) : Prop :=
  after = [] ∨ endsText after = true

theorem textTail_of_prose {text after : List Char} (h : Prose text after) (hends : Ends after) :
    textTail (text ++ after) = text.length := by
  induction text with
  | nil =>
    cases after with
    | nil => rfl
    | cons c after =>
      have : endsText (c :: after) = true := hends.resolve_left (by simp)
      exact if_pos this
  | cons c text ih =>
    have := h.1
    rw [endsText] at this
    rw [List.cons_append, textTail, if_neg (by simp [this]), ih h.2, List.length_cons]

theorem prose_textTail (text : List Char) :
    ∃ x y, text = x ++ y ∧ textTail text = x.length ∧ Prose x y ∧ Ends y := by
  induction text with
  | nil => exact ⟨[], [], rfl, rfl, trivial, .inl rfl⟩
  | cons c text ih =>
    by_cases hc : endsText (c :: text) = true
    · exact ⟨[], c :: text, rfl, if_pos hc, trivial, .inr hc⟩
    · obtain ⟨x, y, rfl, hlen, hprose, hends⟩ := ih
      refine ⟨c :: x, y, rfl, ?_, ⟨Bool.eq_false_iff.mpr hc, hprose⟩, hends⟩
      exact (if_neg hc).trans (by rw [hlen, List.length_cons])

namespace OpenTree

variable {t u v : OpenTree}

/-- A run of character data. -/
theorem reading_text {x y : List Char} (hrest : t.reading.rest = x ++ y) (hne : x ≠ [])
    (hprose : Prose x y) (hends : Ends y) :
    t.text.reading = t.reading.run (some .htmlText) .htmlText x.length := by
  have hstart : endsText t.reading.rest = false := by
    cases x with
    | nil => exact absurd rfl hne
    | cons c x =>
      rw [hrest]
      exact hprose.1
  have htail := textTail_of_prose hprose hends
  rw [← hrest, ← textTail_tail (by simp [hrest, hne]) hstart] at htail
  show t.reading.run _ _ (textTail t.reading.rest.tail + 1) = _
  rw [htail]

theorem text_onto {x y z : List Char} (hrest : t.reading.rest = x ++ y) (hne : x ≠ [])
    (hprose : Prose x y) (hends : Ends y) (hprose' : Prose x z) (hends' : Ends z) :
    (t.onto (x ++ z)).text = t.text.onto z := by
  have hlen : t.reading.rest.take x.length = x := by rw [hrest, List.take_left' rfl]
  have hrun := Reading.run_onto (r := t.reading) (some .htmlText) .htmlText (n := x.length)
    (by rw [hrest, List.length_append]; omega) z
  rw [hlen, ← reading_text hrest hne hprose hends] at hrun
  have hread := reading_text (t := t.onto (x ++ z)) rfl hne hprose' hends'
  rw [onto_reading, hrun] at hread
  show (t.onto (x ++ z)).push (.text t.reading.next (t.onto (x ++ z)).text.reading.last)
    (t.onto (x ++ z)).text.reading = _
  rw [hread]
  rfl

/-! ## Steps in turn -/

/-- A tree grows into another by a step. -/
def Steps (t u : OpenTree) : Prop :=
  t.reading.rest ≠ [] ∧ t.step = .ok u

/-- A tree grows into another by steps in turn. -/
def Becomes : OpenTree → OpenTree → Prop :=
  Relation.ReflTransGen Steps

theorem Steps.grow (h : t.Steps u) : t.grow = u.grow := by
  obtain ⟨c, rest, hr⟩ := List.exists_cons_of_ne_nil h.1
  rw [grow_cons hr, h.2]
  rfl

theorem Becomes.grow (h : t.Becomes u) : t.grow = u.grow := by
  induction h with
  | refl => rfl
  | tail _ hstep ih => rw [ih, hstep.grow]

theorem becomes_of_grow (h : t.grow = .ok v) : t.Becomes v ∧ v.reading.rest = [] := by
  fun_induction grow t with
  | case1 t hr =>
    cases h
    exact ⟨.refl, hr⟩
  | case2 => cases h
  | case3 t c rest hr u hu ih =>
    obtain ⟨hbecomes, hend⟩ := ih h
    exact ⟨.head ⟨by simp [hr], hu⟩ hbecomes, hend⟩

theorem Becomes.grows (h : t.Becomes u) (hfits : t.Fits) : t.Grows u := by
  induction h with
  | refl => exact .refl t
  | tail _ hstep ih => exact ih.trans (grows_step hstep.1 hstep.2 (ih.2 hfits))

/-- **The step that reads a token**: a tree that grows to the end comes by it. -/
theorem exists_steps_of_lt (hu : t.grow = .ok u) {i : Nat} (hlo : t.reading.next ≤ i)
    (hi : i < u.reading.next) :
    ∃ v w, t.Becomes v ∧ v.Steps w ∧ v.reading.next ≤ i ∧ i < w.reading.next := by
  fun_induction grow t with
  | case1 =>
    cases hu
    omega
  | case2 => cases hu
  | case3 t c rest hr w hw ih =>
    have hstep : t.Steps w := ⟨by simp [hr], hw⟩
    by_cases hlt : i < w.reading.next
    · exact ⟨t, w, .refl, hstep, hlo, hlt⟩
    · obtain ⟨v, x, hv, hx⟩ := ih hu (by omega)
      exact ⟨v, x, .head hstep hv, hx⟩

/-- **Growing a tree up to a run of character data** does not depend on what the run is, if no quote
that opens no string finds its end in the text from there on. -/
theorem becomes_onto (h : t.Becomes v) (hfits : t.Fits) (hstart : endsText v.reading.rest = false)
    (hne : v.reading.rest ≠ []) : ∃ q, t.reading.rest = q ++ v.reading.rest ∧
      (q = [] ∨ ∃ a d, Closing d ∧ q = a ++ [d]) ∧
      ∀ y, y ≠ [] → Quiet v.reading.tokens v.reading.rest y →
        (t.onto (q ++ y)).Becomes (v.onto y) := by
  induction h using Relation.ReflTransGen.head_induction_on with
  | refl => exact ⟨[], rfl, .inl rfl, fun y _ _ => .refl⟩
  | @head t u hstep hbecomes ih =>
    have hgrows := grows_step hstep.1 hstep.2 hfits
    obtain ⟨q, hq, hclosing, hall⟩ := ih (hgrows.2 hfits)
    obtain ⟨ts, hts⟩ := (Becomes.grows hbecomes (hgrows.2 hfits)).1
    by_cases hends : endsText t.reading.rest = true
    · obtain ⟨a, d, hd, ha, hnext⟩ := step_onto hends hstep.2
      have hquiet : ∀ y, Quiet v.reading.tokens v.reading.rest y →
          Quiet u.reading.tokens u.reading.rest (q ++ y) := by
        intro y hy
        refine Quiet.mono hts.extends ?_
        rw [hq]
        rcases hclosing with rfl | ⟨b, e, he, rfl⟩
        · exact hy
        · rw [List.append_assoc, List.append_assoc]
          exact hy.append (by rcases he with rfl | rfl <;> decide) b
      refine ⟨a ++ d :: q, by rw [ha, hq, List.append_assoc, List.cons_append], .inr ?_,
        fun y hy hquiet' => ?_⟩
      · rcases hclosing with rfl | ⟨b, e, he, rfl⟩
        · exact ⟨a, d, hd, rfl⟩
        · exact ⟨a ++ d :: b, e, he, by rw [List.append_assoc, List.cons_append]⟩
      · rw [List.append_assoc, List.cons_append]
        exact .head ⟨by simp, hnext _ (hquiet y hquiet')⟩ (hall y hy hquiet')
    · rw [Bool.not_eq_true] at hends
      obtain rfl : u = t.text := (Except.ok.inj ((step_text hends).symm.trans hstep.2)).symm
      obtain ⟨x, z, hxz, hlen, hprose, hz⟩ := prose_textTail t.reading.rest
      have hx : x ≠ [] := by
        rintro rfl
        rw [← textTail_tail hstep.1 hends] at hlen
        cases hlen
      have hread := reading_text hxz hx hprose hz
      have hz' : t.text.reading.rest = z := by
        rw [hread, Reading.rest_run, hxz, List.drop_left' rfl]
      rw [hz'] at hq
      -- Markup begins after the run, so the tree is not there yet.
      have hmarkup : endsText z = true := hz.resolve_left (by simp [hq, hne])
      rcases hclosing with rfl | ⟨b, e, he, rfl⟩
      · rw [List.nil_append] at hq
        rw [hq, hstart] at hmarkup
        cases hmarkup
      · have hstops : Stops e endsText := by
          rcases he with rfl | rfl <;> exact stops_endsText (by decide) (by decide) (by decide)
        rw [List.append_assoc, List.singleton_append] at hq
        refine ⟨x ++ (b ++ [e]), by rw [hxz, hq, List.append_assoc, List.append_assoc]; rfl,
          .inr ⟨x ++ b, e, he, (List.append_assoc ..).symm⟩, fun y hy hquiet' => ?_⟩
        have hsame : b ++ [e] ++ y = b ++ e :: y := by
          rw [List.append_assoc, List.singleton_append]
        have hprose' : Prose x (b ++ e :: y) := prose_onto hstops (hq ▸ hprose) y
        have hmarkup' : endsText (b ++ e :: y) = true := by
          rw [hstops b y v.reading.rest, ← hq, hmarkup]
        have htext := text_onto hxz hx hprose hz hprose' (.inr hmarkup')
        have hfirst : endsText (t.onto (x ++ (b ++ e :: y))).reading.rest = false := by
          cases x with
          | nil => exact absurd rfl hx
          | cons c x => exact hprose'.1
        have hnext := hall y hy hquiet'
        rw [hsame] at hnext
        rw [List.append_assoc, hsame]
        refine .head ⟨by simp, ?_⟩ hnext
        rw [step_text hfirst, htext]

end OpenTree

end MarkupIndent.Markup
