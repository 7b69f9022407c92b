import MarkupIndent.Proofs.Replay

/-!
# Where reading stops

A text that cannot be read gives an error with a line and a column. Most errors say what is wrong
where reading stopped; three of them concern a construct that was not closed, and point back to the
sign that opened it.

* `ReadFault.Local`, `Reading.Blames`: what an error concerns.
* `halts_readMustache`, `halts_readAttributes` and the like: why a piece of markup is not read.
* `OpenTree.Opens`, `OpenTree.StaysOpen`: a construct that is opened and never closed.
* `exists_staysOpen`: a construct that is open at the end was opened on the way there.
* `pointsInto_of_read`: **every error points into the text**.
-/

namespace MarkupIndent.Markup

open Text

/-- A sequence of two steps fails when one of them does. -/
theorem bind_eq_error {ε α β : Type} {x : Except ε α} {f : α → Except ε β} {e : ε} :
    (x >>= f) = .error e ↔ x = .error e ∨ ∃ a, x = .ok a ∧ f a = .error e := by
  cases x <;> simp [bind, Except.bind]

/-- The causes that lie where reading stops, and not where a construct was opened. -/
def ReadFault.Local : ReadFault → Prop
  | .unclosedElement _ | .unclosedBlock _ | .unterminatedMustache => False
  | _ => True

/-! ## Pieces of markup -/

namespace Reading

/-- The text ends before the brace that closes the one at the place of a reading. -/
structure Unterminated (r : Reading) (e : ReadError) : Prop where
  opened : r.startsWith ['{'] = true
  error : e = ReadFault.unterminatedMustache.at r.place
  stops : r.readMustache = .error e ∨ r.readBlockTag = .error e

/-- An error concerns the place of a reading. -/
def Blames (r : Reading) (e : ReadError) : Prop :=
  (∃ fault : ReadFault, fault.Local ∧ e = r.fail fault) ∨ r.Unterminated e

/-- A reading goes on to a place that an error concerns. -/
def Halts (r : Reading) (e : ReadError) : Prop :=
  ∃ ts s, Reads r ts s ∧ s.Blames e

variable {r s : Reading} {e : ReadError}

theorem Halts.after {ts : List Token} (h : s.Halts e) (hs : Reads r ts s) : r.Halts e := by
  obtain ⟨us, t, ht, hb⟩ := h
  exact ⟨_, t, hs.trans ht, hb⟩

theorem Halts.afterMarkup (h : s.Halts e) (hs : ReadsMarkup r s) : r.Halts e :=
  h.after hs.choose_spec.1

theorem halts_fail (r : Reading) (fault : ReadFault) (h : fault.Local) : r.Halts (r.fail fault) :=
  ⟨[], r, .done r, .inl ⟨fault, h, rfl⟩⟩

theorem readExpression_error {opened : Cursor} {depth : Nat}
    (h : readExpression opened depth r = .error e) :
    e = ReadFault.unterminatedMustache.at opened := by
  fun_induction readExpression opened depth r with
  | case1 => exact (Except.error.inj h).symm
  | case2 => cases h
  | case3 depth r c rest hr hd lexeme ih => exact ih h

theorem halts_readKeyword (h : readKeyword r = .error e) : r.Halts e := by
  unfold readKeyword at h
  simp only at h
  split at h
  · cases h
    exact (halts_fail _ .expectedKeyword trivial).after (reads_skipBlanks r)
  · cases h

theorem halts_readMustache (hs : r.startsWith ['{'] = true) (h : readMustache r = .error e) :
    r.Halts e := by
  have hwhole := h
  unfold readMustache at h
  split at h
  · next hat =>
    rcases bind_eq_error.mp h with h | ⟨⟨word, t⟩, -, h⟩
    · exact (halts_readKeyword h).afterMarkup (readsMarkup_sign hat (by simp) (by decide))
    · rcases bind_eq_error.mp h with h | ⟨u, -, h⟩
      · exact ⟨[], r, .done r, .inr ⟨hs, readExpression_error h, .inl hwhole⟩⟩
      · cases h
  · rcases bind_eq_error.mp h with h | ⟨u, -, h⟩
    · exact ⟨[], r, .done r, .inr ⟨hs, readExpression_error h, .inl hwhole⟩⟩
    · cases h

theorem halts_readBlockTag {sign : Char} (hb : isBlank sign = false)
    (hs : r.startsWith ['{', sign] = true) (h : readBlockTag r = .error e) : r.Halts e := by
  have hwhole := h
  have hopen : r.startsWith ['{'] = true := by
    rw [startsWith, List.isPrefixOf_iff_prefix] at hs ⊢
    exact (List.prefix_append ['{'] [sign]).trans hs
  rcases bind_eq_error.mp h with h | ⟨⟨word, t⟩, -, h⟩
  · exact (halts_readKeyword h).afterMarkup (readsMarkup_sign hs (by simp) (word_blockSign hb))
  · rcases bind_eq_error.mp h with h | ⟨u, -, h⟩
    · exact ⟨[], r, .done r, .inr ⟨hopen, readExpression_error h, .inr hwhole⟩⟩
    · cases h

theorem halts_readQuoted {quote : Char} {values : List Mustache}
    (h : readQuoted quote values r = .error e) : r.Halts e := by
  fun_induction readQuoted quote values r with
  | case1 =>
    cases h
    exact halts_fail _ .unterminatedAttributeValue trivial
  | case2 => cases h
  | case3 values r rest e' hm hr hc =>
    cases h
    exact halts_readMustache (by simp [startsWith, hr]) hm
  | case4 values r rest m t hm hr hc ih =>
    exact (ih h).afterMarkup (reads_readMustache (by simp [startsWith, hr]) hm).1
  | case5 values r c rest hr hc hb n ih => exact (ih h).afterMarkup (readsMarkup_literals r)

theorem halts_readValue (h : readValue r = .error e) : r.Halts e := by
  unfold readValue at h
  split at h
  · next hq =>
    exact (halts_readQuoted h).afterMarkup (readsMarkup_sign hq (by simp) (by decide))
  split at h
  · next hq =>
    exact (halts_readQuoted h).afterMarkup (readsMarkup_sign hq (by simp) (by decide))
  split at h
  · next hb =>
    rcases bind_eq_error.mp h with h | ⟨⟨m, t⟩, -, h⟩
    · exact halts_readMustache hb h
    · cases h
  · split at h
    · cases h
    · cases h
      exact halts_fail _ .expectedAttributeValue trivial

theorem halts_readAttribute (h : readAttribute r = .error e) : r.Halts e := by
  unfold readAttribute at h
  split at h
  · next hb =>
    rcases bind_eq_error.mp h with h | ⟨⟨m, t⟩, -, h⟩
    · exact halts_readMustache hb h
    · cases h
  · simp only at h
    split at h
    · cases h
      exact halts_fail _ .expectedAttributeName trivial
    · next hn =>
      have hkey : ReadsMarkup r (r.emit .name (attributeNameLength r.rest)) :=
        readsMarkup_emit (attributeNameLength_le _) (inline_attributeName hn) (by decide)
      split at h
      · next heq =>
        rcases bind_eq_error.mp h with h | ⟨⟨ms, t⟩, -, h⟩
        · exact (halts_readValue h).afterMarkup (((hkey.trans (readsMarkup_skipBlanks _)).trans
            (readsMarkup_sign heq (by simp) (by decide))).trans (readsMarkup_skipBlanks _))
        · cases h
      · cases h

theorem halts_readAttributes {before : List Attribute} (h : readAttributes before r = .error e) :
    r.Halts e := by
  fun_induction readAttributes before r with
  | case1 before r hr =>
    cases h
    exact (halts_fail _ .unterminatedStartTag trivial).after (reads_skipBlanks r)
  | case2 => cases h
  | case3 => cases h
  | case4 before r c rest hr h1 h2 e' ha =>
    cases h
    exact (halts_readAttribute ha).after (reads_skipBlanks r)
  | case5 before r c rest hr h1 h2 a t ha ih =>
    exact (ih h).afterMarkup ((readsMarkup_skipBlanks r).trans (reads_readAttribute ha).1)

theorem halts_readStartTag (hr : r.startsWith ['<'] = true) (hn : tagNameLength r.rest.tail ≠ 0)
    (h : readStartTag r = .error e) : r.Halts e := by
  unfold readStartTag at h
  rcases bind_eq_error.mp h with h | ⟨⟨as, closed, t⟩, -, h⟩
  · rw [length_take_tagName] at h
    exact (halts_readAttributes h).afterMarkup
      ((readsMarkup_sign hr (by simp) (by decide)).trans (readsMarkup_tagName hn).2)
  · cases h

theorem halts_readEndTag {name : List Char} (hr : r.startsWith ['<', '/'] = true)
    (hname : Inline name) (h : readEndTag name r = .error e) : r.Halts e := by
  have hopen := (readsMarkup_sign hr (by simp) (by decide)).trans (readsMarkup_skipBlanks _)
  unfold readEndTag at h
  simp only at h
  split at h
  · cases h
    exact (halts_fail _ (.expectedEndTag name) trivial).afterMarkup hopen
  · next hn =>
    have hnamed : ReadsMarkup (r.emit .punctuator 2).skipBlanks
        ((r.emit .punctuator 2).skipBlanks.emit .name
          (tagNameLength (r.emit .punctuator 2).skipBlanks.rest)) :=
      readsMarkup_emit (tagNameLength_le _) (by rw [not_not.mp hn]; exact hname) (by decide)
    split at h
    · cases h
    · cases h
      exact (halts_fail _ .expectedTagEnd trivial).afterMarkup
        ((hopen.trans hnamed).trans (readsMarkup_skipBlanks _))

end Reading

/-! ## Steps -/

namespace OpenTree

variable {t u v : OpenTree} {e : ReadError}

/-- A construct begins at the place of a tree, and an error says that it is not closed. An element
whose content is not markup is named in small letters. -/
inductive Opens (t : OpenTree) : ReadError → Prop
  | element {tag : StartTag} {written name : List Char} {r : Reading}
      (sign : t.reading.startsWith ['<'] = true)
      (read : t.reading.readStartTag = .ok (tag, written, r))
      (named : name = written ∨ name = lower written) :
      Opens t ((ReadFault.unclosedElement name).at t.reading.place)
  | block {tag : BlockTag} {r : Reading} (sign : t.reading.startsWith ['{', '#'] = true)
      (read : t.reading.readBlockTag = .ok (tag, r)) :
      Opens t ((ReadFault.unclosedBlock tag.keyword).at t.reading.place)

/-- Whatever is read after the place of a tree is read inside what begins there. -/
def StaysOpen (t : OpenTree) : Prop :=
  ∀ u, t.Becomes u → u = t ∨ t.frames.length < u.frames.length

/-- The errors that constructs give if they are left open, the innermost first. -/
def unclosed (t : OpenTree) : List ReadError :=
  t.frames.map Frame.unclosed

theorem length_unclosed (t : OpenTree) : t.unclosed.length = t.frames.length :=
  List.length_map _

theorem name_of_ofName? {name : List Char} {kind : RawKind} (h : RawKind.ofName? name = some kind) :
    kind.name = name := by
  unfold RawKind.ofName? at h
  split at h
  · next hn =>
    cases h
    exact hn.symm
  · split at h
    · next hn =>
      cases h
      exact hn.symm
    · cases h

theorem unclosed_closeElement (h : t.closeElement = .ok u) : ∃ e, t.unclosed = e :: u.unclosed := by
  unfold closeElement at h
  split at h
  · cases h
  · next hframes =>
    obtain ⟨⟨tag, s⟩, -, h⟩ := bind_eq_ok.mp h
    cases h
    exact ⟨_, by rw [unclosed, hframes]; rfl⟩
  · cases h

theorem unclosed_nextBranch (h : t.nextBranch = .ok u) : u.unclosed = t.unclosed := by
  unfold nextBranch at h
  split at h
  · cases h
  · next hframes =>
    obtain ⟨⟨tag, s⟩, -, h⟩ := bind_eq_ok.mp h
    cases h
    rw [unclosed, unclosed, hframes]
    rfl
  · cases h

theorem unclosed_endBlock (h : t.endBlock = .ok u) : ∃ e, t.unclosed = e :: u.unclosed := by
  unfold endBlock at h
  split at h
  · cases h
  · next hframes =>
    obtain ⟨⟨tag, s⟩, -, h⟩ := bind_eq_ok.mp h
    simp only at h
    split at h
    · cases h
    · cases h
      exact ⟨_, by rw [unclosed, hframes]; rfl⟩
  · cases h

theorem unclosed_openElement (hs : t.reading.startsWith ['<'] = true) (h : t.openElement = .ok u) :
    u.unclosed = t.unclosed ∨ ∃ e, u.unclosed = e :: t.unclosed ∧ t.Opens e := by
  obtain ⟨⟨tag, written, s⟩, hread, h⟩ := bind_eq_ok.mp h
  simp only at h
  split at h
  · split at h
    · cases h
      exact .inl rfl
    · unfold raw at h
      split at h
      · cases h
      · obtain ⟨⟨endTag, w⟩, -, h⟩ := bind_eq_ok.mp h
        cases h
        exact .inl rfl
  · split at h <;> cases h
    · exact .inl rfl
    · exact .inr ⟨_, rfl, .element hs hread (.inl rfl)⟩

/-- A step leaves the open constructs as they are, closes the innermost or opens one more. -/
theorem unclosed_step (h : t.step = .ok u) : u.unclosed = t.unclosed ∨
    (∃ e, t.unclosed = e :: u.unclosed) ∨ ∃ e, u.unclosed = e :: t.unclosed ∧ t.Opens e := by
  have hbegins := begins_lead t.reading.rest
  rw [step_eq] at h
  generalize lead t.reading.rest = first at h hbegins
  cases first with
  | closeElement => exact .inr (.inl (unclosed_closeElement h))
  | nextBranch => exact .inl (unclosed_nextBranch h)
  | endBlock => exact .inr (.inl (unclosed_endBlock h))
  | comment =>
    replace h : t.comment = .ok u := h
    unfold comment at h
    split at h <;> cases h
    exact .inl rfl
  | openElement => exact (unclosed_openElement hbegins.1 h).imp_right .inr
  | openBlock =>
    obtain ⟨⟨tag, s⟩, hread, h⟩ := bind_eq_ok.mp h
    cases h
    exact .inr (.inr ⟨_, rfl, .block hbegins hread⟩)
  | mustache =>
    obtain ⟨⟨m, s⟩, -, h⟩ := bind_eq_ok.mp h
    cases h
    exact .inl rfl
  | text =>
    cases h
    exact .inl rfl

theorem halts_closeElement (hs : t.reading.startsWith ['<', '/'] = true) (hfits : t.Fits)
    (h : t.closeElement = .error e) : t.reading.Halts e ∨ ∃ es, t.unclosed = e :: es := by
  obtain ⟨lo, hlo, -⟩ := hfits
  unfold closeElement at h
  split at h
  · cases h
    exact .inl (Reading.halts_fail _ .unexpectedClosing trivial)
  · next hframes =>
    rw [hframes] at hlo
    rcases bind_eq_error.mp h with h | ⟨a, -, h⟩
    · exact .inl (Reading.halts_readEndTag hs hlo.1 h)
    · cases h
  · next hframes =>
    cases h
    exact .inr ⟨_, by rw [unclosed, hframes]; rfl⟩

theorem halts_nextBranch (hs : t.reading.startsWith ['{', ':'] = true)
    (h : t.nextBranch = .error e) : t.reading.Halts e ∨ ∃ es, t.unclosed = e :: es := by
  unfold nextBranch at h
  split at h
  · cases h
    exact .inl (Reading.halts_fail _ .unexpectedClosing trivial)
  · rcases bind_eq_error.mp h with h | ⟨a, -, h⟩
    · exact .inl (Reading.halts_readBlockTag rfl hs h)
    · cases h
  · next hframes =>
    cases h
    exact .inr ⟨_, by rw [unclosed, hframes]; rfl⟩

theorem halts_endBlock (hs : t.reading.startsWith ['{', '/'] = true) (h : t.endBlock = .error e) :
    t.reading.Halts e ∨ ∃ es, t.unclosed = e :: es := by
  unfold endBlock at h
  split at h
  · cases h
    exact .inl (Reading.halts_fail _ .unexpectedClosing trivial)
  · rcases bind_eq_error.mp h with h | ⟨a, -, h⟩
    · exact .inl (Reading.halts_readBlockTag rfl hs h)
    · simp only at h
      split at h <;> cases h
      exact .inl (Reading.halts_fail _ (.expectedCloseTag _) trivial)
  · next hframes =>
    cases h
    exact .inr ⟨_, by rw [unclosed, hframes]; rfl⟩

theorem halts_openElement (hs : t.reading.startsWith ['<'] = true)
    (hn : tagNameLength t.reading.rest.tail ≠ 0) (h : t.openElement = .error e) :
    t.reading.Halts e ∨ t.Opens e := by
  rcases bind_eq_error.mp h with h | ⟨⟨tag, written, s⟩, hread, h⟩
  · exact .inl (Reading.halts_readStartTag hs hn h)
  · obtain ⟨⟨htag, -⟩, hname, -⟩ := Reading.reads_readStartTag hs hn hread
    simp only at h
    split at h
    · next kind hkind =>
      split at h
      · cases h
      · unfold raw at h
        split at h
        · cases h
          exact .inr (.element hs hread (.inr (name_of_ofName? hkind)))
        · next n hclose =>
          have hcontent : Reading.ReadsMarkup s (s.run none .rawText n) :=
            Reading.readsMarkup_run .rawText (fun _ h => h) (by decide) s
          rcases bind_eq_error.mp h with h | ⟨a, -, h⟩
          · exact .inl ((Reading.halts_readEndTag (Reading.startsWith_run hclose) hname
              h).afterMarkup (htag.trans hcontent))
          · cases h
    · split at h <;> cases h

/-- **Why a step fails**: an error at a place where reading stops, or a construct that is not
closed, be it the innermost that is open or the one that the step opens. -/
theorem halts_step (hfits : t.Fits) (h : t.step = .error e) :
    t.reading.Halts e ∨ (∃ es, t.unclosed = e :: es) ∨ t.Opens e := by
  have hbegins := begins_lead t.reading.rest
  rw [step_eq] at h
  generalize lead t.reading.rest = first at h hbegins
  cases first with
  | closeElement => exact (halts_closeElement hbegins hfits h).imp_right .inl
  | nextBranch => exact (halts_nextBranch hbegins h).imp_right .inl
  | endBlock => exact (halts_endBlock hbegins h).imp_right .inl
  | comment =>
    replace h : t.comment = .error e := h
    unfold comment at h
    split at h <;> cases h
    exact .inl (Reading.halts_fail _ .unterminatedComment trivial)
  | openElement => exact (halts_openElement hbegins.1 hbegins.2 h).imp_right .inr
  | openBlock =>
    rcases bind_eq_error.mp h with h | ⟨a, -, h⟩
    · exact .inl (Reading.halts_readBlockTag rfl hbegins h)
    · cases h
  | mustache =>
    rcases bind_eq_error.mp h with h | ⟨a, -, h⟩
    · exact .inl (Reading.halts_readMustache hbegins h)
    · cases h
  | text => cases h

/-! ## Constructs that stay open -/

/-- Nothing is read after the place of a tree. -/
def Stuck (t : OpenTree) : Prop :=
  ∀ u, ¬ t.Steps u

/-- There is one way on from a tree. -/
theorem Becomes.eq_or (h : t.Becomes v) (hu : t.Steps u) : v = t ∨ u.Becomes v := by
  rcases Relation.ReflTransGen.cases_head h with rfl | ⟨w, hw, hv⟩
  · exact .inl rfl
  · obtain rfl : w = u := Except.ok.inj (hw.2.symm.trans hu.2)
    exact .inr hv

theorem Stuck.eq (h : t.Stuck) (hv : t.Becomes v) : v = t := by
  rcases Relation.ReflTransGen.cases_head hv with rfl | ⟨w, hw, -⟩
  · rfl
  · exact absurd hw (h w)

theorem Stuck.staysOpen (h : t.Stuck) : t.StaysOpen :=
  fun _ hu => .inl (h.eq hu)

/-- **A construct that is open where reading ends** is open from some tree on, or it was opened on
the way from there and stays open. The induction goes back from the end. -/
theorem exists_staysOpen {es : List ReadError} (hv : v.Stuck) (hopen : v.unclosed = e :: es)
    (h : t.Becomes v) :
    (t.unclosed.reverse[es.length]? = some e ∧ ∀ u, t.Becomes u → es.length < u.frames.length) ∨
      ∃ w, t.Becomes w ∧ w.Opens e ∧ w.StaysOpen := by
  induction h using Relation.ReflTransGen.head_induction_on with
  | refl =>
    refine .inl ⟨by simp [hopen], fun u hu => ?_⟩
    rw [hv.eq hu, ← length_unclosed, hopen]
    exact Nat.lt_succ_self _
  | @head t u hstep _ ih =>
    rcases ih with ⟨hlast, hdeep⟩ | ⟨w, hw, hwopens⟩
    · have hon : es.length < t.frames.length →
          ∀ x, t.Becomes x → es.length < x.frames.length := by
        intro hlt x hx
        rcases hx.eq_or hstep with rfl | hx
        · exact hlt
        · exact hdeep x hx
      rcases unclosed_step hstep.2 with hsame | ⟨e', hpop⟩ | ⟨e', hpush, hopens⟩
      · rw [hsame] at hlast
        have hlt := (List.getElem?_eq_some_iff.mp hlast).1
        rw [List.length_reverse, length_unclosed] at hlt
        exact .inl ⟨hlast, hon hlt⟩
      · have hlt := (List.getElem?_eq_some_iff.mp hlast).1
        refine .inl ⟨?_, hon ?_⟩
        · rw [hpop, List.reverse_cons, List.getElem?_append_left hlt, hlast]
        · rw [List.length_reverse] at hlt
          rw [← length_unclosed, hpop, List.length_cons]
          omega
      · rw [hpush, List.reverse_cons] at hlast
        rcases Nat.lt_or_ge es.length t.unclosed.reverse.length with hlt | hge
        · rw [List.getElem?_append_left hlt] at hlast
          rw [List.length_reverse, length_unclosed] at hlt
          exact .inl ⟨hlast, hon hlt⟩
        · -- The construct is the one that this step opens.
          have hlt := (List.getElem?_eq_some_iff.mp hlast).1
          simp only [List.length_append, List.length_reverse, List.length_singleton,
            length_unclosed] at hlt hge
          have heq : es.length = t.frames.length := by omega
          rw [List.getElem?_append_right (by simp [length_unclosed, heq])] at hlast
          simp only [heq, List.length_reverse, length_unclosed, Nat.sub_self,
            List.getElem?_cons_zero, Option.some.injEq] at hlast
          refine .inr ⟨t, .refl, hlast ▸ hopens, fun x hx => ?_⟩
          exact (hx.eq_or hstep).imp_right fun hx => heq ▸ hdeep x hx
    · exact .inr ⟨w, .head hstep hw, hwopens⟩

theorem exists_step_error (h : t.grow = .error e) : ∃ v, t.Becomes v ∧ v.step = .error e := by
  fun_induction grow t with
  | case1 => cases h
  | case2 t c rest hr e' he =>
    cases h
    exact ⟨t, .refl, he⟩
  | case3 t c rest hr u hu ih =>
    obtain ⟨v, hv, he⟩ := ih h
    exact ⟨v, .head ⟨by simp [hr], hu⟩ hv, he⟩

/-- What is left open where reading ends was opened on the way. -/
theorem exists_opens_of_unclosed {text : List Char} {es : List ReadError}
    (h : (start text).Becomes v) (hstuck : v.Stuck) (hopen : v.unclosed = e :: es) :
    ∃ w, (start text).Becomes w ∧ w.Opens e ∧ w.StaysOpen := by
  rcases exists_staysOpen hstuck hopen h with ⟨hfirst, -⟩ | hopened
  · simp [unclosed, start] at hfirst
  · exact hopened

end OpenTree

/-! ## Errors of a text -/

/-- An error has the line and the column of an offset of a text. -/
structure ReadError.PointsAt (text : List Char) (e : ReadError) (o : Nat) : Prop where
  le : o ≤ text.length
  line_pos : 1 ≤ e.line
  line_le : e.line ≤ (LineTable.ofText text).count
  line : (LineTable.ofText text).lineOf o = e.line
  column : ∃ start, (LineTable.ofText text).start? e.line = some start ∧ start + e.column = o

/-- What stands at the offset of an error that concerns an opening sign: a construct that is opened
there and stays open to where reading ends, or a mustache or a tag of a block, in the piece of
markup at which reading ends, that has no closing brace. -/
def ReadError.Concerns (text : List Char) (e : ReadError) (o : Nat) : Prop :=
  match e.fault with
  | .unclosedElement _ => text[o]? = some '<' ∧ ∃ t, (OpenTree.start text).Becomes t ∧
      t.reading.place.offset = o ∧ t.Opens e ∧ t.StaysOpen
  | .unclosedBlock _ => text[o]? = some '{' ∧ ∃ t, (OpenTree.start text).Becomes t ∧
      t.reading.place.offset = o ∧ t.Opens e ∧ t.StaysOpen
  | .unterminatedMustache => text[o]? = some '{' ∧ ∃ t ts r, (OpenTree.start text).Becomes t ∧
      t.step = .error e ∧ Reading.Reads t.reading ts r ∧ r.place.offset = o ∧ r.Unterminated e
  | _ => True

/-- An error concerns an offset of a text. -/
def ReadError.PointsInto (text : List Char) (e : ReadError) : Prop :=
  ∃ o, e.PointsAt text o ∧ e.Concerns text o

section Text

variable {text : List Char} {r : Reading} {t v : OpenTree} {e : ReadError}

/-- The place of a reading has the line and column of its offset. -/
theorem pointsAt_place (hr : Tracks text r) (fault : ReadFault) :
    (fault.at r.place).PointsAt text r.place.offset := by
  have hline : r.place.line = (text.take r.place.offset).count '\n' + 1 := by
    conv_lhs => rw [hr.place]
    exact line_over _
  have hcolumn : r.place.column = (lastLine (text.take r.place.offset)).length := by
    conv_lhs => rw [hr.place]
    exact column_over _
  have hof : (LineTable.ofText text).lineOf r.place.offset = r.place.line := by
    rw [lineOf_ofText, hline]
  have hfound := line?_ofText (text.take r.place.offset) (text.drop r.place.offset)
  rw [List.take_append_drop, ← hline, ← hcolumn, List.length_take_of_le hr.le] at hfound
  refine ⟨hr.le, ?_, ?_, hof, _, by rw [LineTable.start?, ReadFault.at, hfound]; rfl, ?_⟩
  · show 1 ≤ r.place.line
    omega
  · show r.place.line ≤ _
    rw [← hof]
    exact Array.countP_le_size
  · have hle := length_lastLine_le (text.take r.place.offset)
    rw [← hcolumn, List.length_take_of_le hr.le] at hle
    exact Nat.sub_add_cancel hle

theorem getElem?_of_startsWith (hr : Tracks text r) {c : Char} {word : List Char}
    (hs : r.startsWith (c :: word) = true) : text[r.place.offset]? = some c := by
  obtain ⟨rest, hrest⟩ := List.isPrefixOf_iff_prefix.mp hs
  rw [hr.rest] at hrest
  rw [← Nat.add_zero r.place.offset, ← List.getElem?_drop, ← hrest]
  rfl

theorem tracks_of_becomes (h : (OpenTree.start text).Becomes t) :
    Tracks text t.reading ∧ t.Fits := by
  have hgrows := h.grows (fits_start text)
  obtain ⟨ts, hts⟩ := hgrows.1
  exact ⟨tracks_of_reads hts (tracks_start text), hgrows.2 (fits_start text)⟩

/-- **Why a text is not read**: reading comes to a step that stops at a place, or to a construct
that stays open. -/
theorem exists_becomes_of_read (h : Document.read text = .error e) :
    ∃ t, (OpenTree.start text).Becomes t ∧
      (t.step = .error e ∧ t.reading.Halts e ∨ t.Opens e ∧ t.StaysOpen) := by
  rcases bind_eq_error.mp h with h | ⟨v, hgrow, h⟩
  · obtain ⟨v, hv, hstep⟩ := OpenTree.exists_step_error h
    have hstuck : v.Stuck := fun w hw => by cases hstep.symm.trans hw.2
    rcases OpenTree.halts_step (tracks_of_becomes hv).2 hstep with hhalts | ⟨es, hopen⟩ | hopens
    · exact ⟨v, hv, .inl ⟨hstep, hhalts⟩⟩
    · obtain ⟨w, hw, hopened⟩ := OpenTree.exists_opens_of_unclosed hv hstuck hopen
      exact ⟨w, hw, .inr hopened⟩
    · exact ⟨v, hv, .inr ⟨hopens, hstuck.staysOpen⟩⟩
  · obtain ⟨hv, hend⟩ := OpenTree.becomes_of_grow hgrow
    split at h
    · cases h
    · next hframes =>
      cases h
      obtain ⟨w, hw, hopened⟩ := OpenTree.exists_opens_of_unclosed hv (fun w hw => hw.1 hend)
        (by rw [OpenTree.unclosed, hframes]; rfl)
      exact ⟨w, hw, .inr hopened⟩

/-- A construct that stays open is what its error concerns. -/
theorem pointsInto_of_opens (h : (OpenTree.start text).Becomes t) (hopens : t.Opens e)
    (hstays : t.StaysOpen) : e.PointsInto text := by
  have hr := (tracks_of_becomes h).1
  have hwhole := hopens
  cases hopens with
  | element sign read named =>
    exact ⟨_, pointsAt_place hr _, getElem?_of_startsWith hr sign, t, h, rfl, hwhole, hstays⟩
  | block sign read =>
    exact ⟨_, pointsAt_place hr _, getElem?_of_startsWith hr sign, t, h, rfl, hwhole, hstays⟩

theorem pointsInto_of_halts (h : (OpenTree.start text).Becomes t) (hstep : t.step = .error e)
    (hhalts : t.reading.Halts e) : e.PointsInto text := by
  obtain ⟨ts, s, hs, hblames⟩ := hhalts
  have htracks := tracks_of_reads hs (tracks_of_becomes h).1
  rcases hblames with ⟨fault, hlocal, rfl⟩ | hopen
  · refine ⟨s.place.offset, pointsAt_place htracks fault, ?_⟩
    cases fault <;> trivial
  · have herror := hopen.error
    subst herror
    exact ⟨_, pointsAt_place htracks _, getElem?_of_startsWith htracks hopen.opened, t, ts, s, h,
      hstep, hs, rfl, hopen⟩

end Text

/-- **Every error points into the text.** A text gives a document or an error; the line and the
column of the error are those of an offset of the text, and if the error says that a construct is
not closed, that construct was opened at this offset. -/
theorem pointsInto_of_read (text : List Char) : (∃ d, Document.read text = .ok d) ∨
    ∃ e, Document.read text = .error e ∧ e.PointsInto text := by
  rcases hread : Document.read text with e | d
  · refine .inr ⟨e, rfl, ?_⟩
    obtain ⟨t, ht, ⟨hstep, hhalts⟩ | ⟨hopens, hstays⟩⟩ := exists_becomes_of_read hread
    · exact pointsInto_of_halts ht hstep hhalts
    · exact pointsInto_of_opens ht hopens hstays
  · exact .inl ⟨d, rfl⟩

/-- The end tag shows that the block is not closed; the error is at the brace that opened it. -/
example : (Document.read "<a>\n <b>\x7b#if x\x7d</b>".toList).map Document.text =
    .error ⟨.unclosedBlock ['i', 'f'], 2, 4⟩ := by decide +kernel

end MarkupIndent.Markup
