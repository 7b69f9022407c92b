import MarkupIndent.Proofs.Replay

/-!
# Where tags are read

Every mustache in the tree of a text and every tag of a control block was read by a step on the way
to the end of the text, and its tokens are those that were emitted there. So what holds of the tags
that one reading gives holds of all the tags of a document.

* `Part.ReadIn`: a mustache or the tag of a block that is read between two readings.
* `readIn_readQuoted`, `readIn_readAttributes` and the like: the mustaches in a start tag.
* `OpenTree.parts`, `told_step`: the parts of a growing tree, which a step adds to.
* `readIn_of_mem_parts`: **every part of a document was read** from its text.
-/

namespace MarkupIndent.Markup

open Text

/-- A part that is enclosed by braces was read on the way from one reading to another, from a brace
on. -/
def Part.ReadIn (r s : Reading) : Part → Prop
  | .node (.mustache m) => ∃ (u v : Reading) (ts us : List Token), Reading.Reads r ts u ∧
      u.startsWith ['{'] = true ∧ u.readMustache = .ok (m, v) ∧ Reading.Reads v us s
  | .blockTag b => ∃ (u v : Reading) (ts us : List Token) (sign : Char), Reading.Reads r ts u ∧
      isBlank sign = false ∧ u.startsWith ['{', sign] = true ∧ u.readBlockTag = .ok (b, v) ∧
      Reading.Reads v us s
  | _ => True

/-- What was read on a stretch of the way was read on the way. -/
theorem Part.ReadIn.widen {p : Part} {r r' s s' : Reading} {ts us : List Token}
    (h : p.ReadIn r s) (hr : Reading.Reads r' ts r) (hs : Reading.Reads s us s') :
    p.ReadIn r' s' := by
  cases p with
  | node n =>
    cases n with
    | mustache m =>
      obtain ⟨u, v, _, _, h1, h2, h3, h4⟩ := h
      exact ⟨u, v, _, _, hr.trans h1, h2, h3, h4.trans hs⟩
    | text | comment | element | raw | control => trivial
  | blockTag b =>
    obtain ⟨u, v, _, _, sign, h1, h2, h3, h4, h5⟩ := h
    exact ⟨u, v, _, _, sign, hr.trans h1, h2, h3, h4, h5.trans hs⟩
  | _ => trivial

/-! ## Mustaches in start tags -/

namespace Reading

variable {r s : Reading}

theorem readIn_readMustache {m : Mustache} (hr : r.startsWith ['{'] = true)
    (h : readMustache r = .ok (m, s)) : (Part.node (.mustache m)).ReadIn r s :=
  ⟨r, s, [], [], .done r, hr, h, .done s⟩

theorem readIn_readBlockTag {b : BlockTag} {sign : Char} (hb : isBlank sign = false)
    (hr : r.startsWith ['{', sign] = true) (h : readBlockTag r = .ok (b, s)) :
    (Part.blockTag b).ReadIn r s :=
  ⟨r, s, [], [], sign, .done r, hb, hr, h, .done s⟩

theorem readIn_readQuoted {quote : Char} (hq : isBlank quote = false)
    {values ms : List Mustache} (h : readQuoted quote values r = .ok (ms, s)) :
    ∀ m ∈ ms, m ∈ values ∨ (Part.node (.mustache m)).ReadIn r s := by
  fun_induction readQuoted quote values r with
  | case1 => cases h
  | case2 => cases h; exact fun m hm => .inl hm
  | case3 => cases h
  | case4 values r rest m t hm hr hc ih =>
    have hsign : r.startsWith ['{'] = true := by simp [startsWith, hr]
    obtain ⟨ts, hts, -⟩ := (reads_readMustache hsign hm).1
    obtain ⟨us, hus, -⟩ := readsMarkup_readQuoted hq h
    intro n hn
    rcases ih h n hn with hn | hn
    · rcases List.mem_append.mp hn with hn | hn
      · exact .inl hn
      · obtain rfl := List.mem_singleton.mp hn
        exact .inr ((readIn_readMustache hsign hm).widen (.done r) hus)
    · exact .inr (hn.widen hts (.done s))
  | case5 values r c rest hr hc hb n ih =>
    obtain ⟨ts, hts, -⟩ := readsMarkup_literals (n := n + 1) r
    exact fun m hm => (ih h m hm).imp_right fun hm => hm.widen hts (.done s)

theorem readIn_readValue {ms : List Mustache} (h : readValue r = .ok (ms, s)) :
    ∀ m ∈ ms, (Part.node (.mustache m)).ReadIn r s := by
  unfold readValue at h
  split at h
  · next hq =>
    obtain ⟨ts, hts, -⟩ := readsMarkup_sign hq (by simp) (by decide)
    intro m hm
    exact ((readIn_readQuoted rfl h m hm).resolve_left (by simp)).widen hts (.done s)
  split at h
  · next hq =>
    obtain ⟨ts, hts, -⟩ := readsMarkup_sign hq (by simp) (by decide)
    intro m hm
    exact ((readIn_readQuoted rfl h m hm).resolve_left (by simp)).widen hts (.done s)
  split at h
  · next hb =>
    obtain ⟨⟨m, t⟩, h1, h⟩ := bind_eq_ok.mp h
    cases h
    intro n hn
    obtain rfl := List.mem_singleton.mp hn
    exact readIn_readMustache hb h1
  · split at h
    · cases h
      simp
    · cases h

theorem readIn_readAttribute {a : Attribute} (h : readAttribute r = .ok (a, s)) :
    ∀ p ∈ a.parts, p.ReadIn r s := by
  suffices hvalues : ∀ m ∈ a.values, (Part.node (.mustache m)).ReadIn r s by
    intro p hp
    rcases List.mem_cons.mp hp with rfl | hp
    · trivial
    · obtain ⟨m, hm, rfl⟩ := List.mem_map.mp hp
      exact hvalues m hm
  unfold readAttribute at h
  split at h
  · next hb =>
    obtain ⟨⟨m, t⟩, h1, h⟩ := bind_eq_ok.mp h
    cases h
    intro n hn
    obtain rfl := List.mem_singleton.mp hn
    exact readIn_readMustache hb h1
  · simp only at h
    split at h
    · cases h
    next hn =>
    have hkey : ReadsMarkup r (r.emit .name (attributeNameLength r.rest)) :=
      readsMarkup_emit (attributeNameLength_le _) (inline_attributeName hn) (by decide)
    split at h
    · next heq =>
      obtain ⟨⟨ms, t⟩, h2, h⟩ := bind_eq_ok.mp h
      cases h
      obtain ⟨ts, hts, -⟩ := ((hkey.trans (readsMarkup_skipBlanks _)).trans
        (readsMarkup_sign heq (by simp) (by decide))).trans (readsMarkup_skipBlanks _)
      exact fun m hm => (readIn_readValue h2 m hm).widen hts (.done _)
    · cases h
      simp

theorem readIn_readAttributes {before as : List Attribute} {closed : Bool}
    (h : readAttributes before r = .ok (as, closed, s)) :
    ∀ a ∈ as, a ∈ before ∨ ∀ p ∈ a.parts, p.ReadIn r s := by
  fun_induction readAttributes before r with
  | case1 => cases h
  | case2 => cases h; exact fun a ha => .inl ha
  | case3 => cases h; exact fun a ha => .inl ha
  | case4 => cases h
  | case5 before r c rest hr h1 h2 a t ha ih =>
    obtain ⟨ts, hts, -⟩ := (readsMarkup_skipBlanks r).trans (reads_readAttribute ha).1
    obtain ⟨us, hus, -⟩ := readsMarkup_readAttributes h
    intro b hb
    rcases ih h b hb with hb | hb
    · rcases List.mem_append.mp hb with hb | hb
      · exact .inl hb
      · obtain rfl := List.mem_singleton.mp hb
        exact .inr fun p hp => (readIn_readAttribute ha p hp).widen (reads_skipBlanks r) hus
    · exact .inr fun p hp => (hb p hp).widen hts (.done s)

theorem readIn_readStartTag {tag : StartTag} {name : List Char} (hr : r.startsWith ['<'] = true)
    (hn : tagNameLength r.rest.tail ≠ 0) (h : readStartTag r = .ok (tag, name, s)) :
    ∀ p ∈ tag.parts, p.ReadIn r s := by
  unfold readStartTag at h
  obtain ⟨⟨as, closed, t⟩, h1, h⟩ := bind_eq_ok.mp h
  cases h
  rw [length_take_tagName] at h1
  obtain ⟨ts, hts, -⟩ :=
    (readsMarkup_sign hr (by simp) (by decide)).trans (readsMarkup_tagName hn).2
  intro p hp
  rcases List.mem_cons.mp hp with rfl | hp
  · trivial
  · obtain ⟨a, ha, hp⟩ := List.mem_flatMap.mp hp
    exact ((readIn_readAttributes h1 a ha).resolve_left (by simp) p hp).widen hts (.done _)

end Reading

/-! ## Growing trees -/

theorem partsOfNodes_eq (nodes : List Node) : partsOfNodes nodes = nodes.flatMap Node.parts := by
  induction nodes with
  | nil => rfl
  | cons n rest ih => rw [partsOfNodes, ih, List.flatMap_cons]

theorem mem_partsOfNodes_reverse {nodes : List Node} {p : Part} :
    p ∈ partsOfNodes nodes.reverse ↔ p ∈ partsOfNodes nodes := by
  rw [partsOfNodes_eq, partsOfNodes_eq, List.mem_flatMap, List.mem_flatMap]
  simp only [List.mem_reverse]

/-- The parts of an open construct. -/
def Frame.parts : Frame → List Part
  | .element _ tag _ before => partsOfNodes before ++ tag.parts
  | .block _ _ finished tag before =>
    partsOfNodes before ++ (partsOfBranches finished ++ [.blockTag tag])

/-- The parts of a block that is closed are those of its pieces, apart from itself and its
branches. -/
theorem forall_parts_closeBlock {Q : Part → Prop} {closeTag tag : BlockTag} {children : List Node}
    {later finished : List Branch}
    (hcontrol : ∀ openTag nodes branches tag', Q (.node (.control openTag nodes branches tag')))
    (hbranch : ∀ b, Q (.branch b)) (hclose : Q (.blockTag closeTag)) (htag : Q (.blockTag tag))
    (hchildren : ∀ p ∈ partsOfNodes children, Q p) (hlater : ∀ p ∈ partsOfBranches later, Q p)
    (hfinished : ∀ p ∈ partsOfBranches finished, Q p) :
    ∀ p ∈ (closeBlock closeTag tag children later finished).parts, Q p := by
  induction finished generalizing tag children later with
  | nil =>
    intro p hp
    rw [closeBlock, Node.parts, List.mem_cons, List.mem_cons, List.mem_cons, List.mem_append,
      List.mem_append, List.mem_singleton] at hp
    rcases hp with rfl | rfl | rfl | (hp | hp) | rfl
    · exact hcontrol ..
    · exact hbranch _
    · exact htag
    · exact hchildren p hp
    · exact hlater p hp
    · exact hclose
  | cons b earlier ih =>
    obtain ⟨first, inner⟩ := b
    simp only [partsOfBranches, List.forall_mem_cons, List.forall_mem_append] at hfinished
    obtain ⟨-, hfirst, hinner, hearlier⟩ := hfinished
    refine ih hfirst hinner ?_ hearlier
    simp only [partsOfBranches, List.forall_mem_cons, List.forall_mem_append]
    exact ⟨hbranch _, htag, hchildren, hlater⟩

namespace OpenTree

/-- The parts that a growing tree has so far. -/
def parts (t : OpenTree) : List Part :=
  t.frames.flatMap Frame.parts ++ partsOfNodes t.done

/-- The parts that a growing tree has so far were read from a reading on. -/
def Told (r : Reading) (t : OpenTree) : Prop :=
  ∀ p ∈ t.parts, p.ReadIn r t.reading

variable {r : Reading} {t u : OpenTree}

theorem told_iff : t.Told r ↔ (∀ f ∈ t.frames, ∀ p ∈ f.parts, p.ReadIn r t.reading) ∧
    ∀ p ∈ partsOfNodes t.done, p.ReadIn r t.reading := by
  simp only [Told, parts, List.forall_mem_append, List.forall_mem_flatMap]

theorem Told.mono {us : List Token} (h : t.Told r) (hs : Reading.Reads t.reading us u.reading) :
    ∀ p ∈ t.parts, p.ReadIn r u.reading :=
  fun p hp => (h p hp).widen (.done r) hs

theorem told_push {n : Node} {s : Reading} (h : ∀ p ∈ t.parts, p.ReadIn r s)
    (hn : ∀ p ∈ n.parts, p.ReadIn r s) : (t.push n s).Told r := by
  simp only [parts, List.forall_mem_append, List.forall_mem_flatMap] at h
  refine told_iff.mpr ⟨h.1, ?_⟩
  show ∀ p ∈ partsOfNodes (n :: t.done), _
  rw [partsOfNodes, List.forall_mem_append]
  exact ⟨hn, h.2⟩

/-! ### Steps

Each step is given what the tree had before, read up to where the step ends, and the way to where
it begins. -/

section Step

variable {ts : List Token} (hr : Reading.Reads r ts t.reading)
  (ht : ∀ p ∈ t.parts, p.ReadIn r u.reading)
include ht

theorem told_comment (h : t.comment = .ok u) : u.Told r := by
  unfold comment at h
  split at h
  · cases h
  · cases h
    exact told_push ht (by simp [Node.parts, Part.ReadIn])

theorem told_closeElement (h : t.closeElement = .ok u) : u.Told r := by
  unfold closeElement at h
  split at h
  · cases h
  · next name tag opened before frames hframes =>
    obtain ⟨⟨e, s⟩, h1, h⟩ := bind_eq_ok.mp h
    cases h
    simp only [parts, hframes, List.flatMap_cons, Frame.parts, List.forall_mem_append] at ht
    obtain ⟨⟨⟨hbefore, htag⟩, hframes⟩, hdone⟩ := ht
    refine told_iff.mpr ⟨List.forall_mem_flatMap.mp hframes, ?_⟩
    show ∀ p ∈ partsOfNodes (.element name tag t.done.reverse (some e) :: before), _
    simp only [partsOfNodes, Node.parts, List.forall_mem_append, List.forall_mem_cons,
      Option.toList_some, List.map_singleton, mem_partsOfNodes_reverse]
    exact ⟨⟨trivial, ⟨htag, hdone⟩, trivial, by simp⟩, hbefore⟩
  · cases h

include hr

theorem told_mustache (hs : t.reading.startsWith ['{'] = true) (h : t.mustache = .ok u) :
    u.Told r := by
  obtain ⟨⟨m, s⟩, h1, h⟩ := bind_eq_ok.mp h
  cases h
  refine told_push ht ?_
  rw [Node.parts, List.forall_mem_singleton]
  exact (Reading.readIn_readMustache hs h1).widen hr (.done s)

theorem told_openElement (hs : t.reading.startsWith ['<'] = true)
    (hn : tagNameLength t.reading.rest.tail ≠ 0) (h : t.openElement = .ok u) : u.Told r := by
  obtain ⟨⟨tag, name, s⟩, h1, h⟩ := bind_eq_ok.mp h
  obtain ⟨-, hinline, -⟩ := Reading.reads_readStartTag hs hn h1
  have htag : ∀ p ∈ tag.parts, p.ReadIn r s := fun p hp =>
    (Reading.readIn_readStartTag hs hn h1 p hp).widen hr (.done s)
  simp only at h
  split at h
  · split at h
    · cases h
      refine told_push ht ?_
      simpa [Node.parts, partsOfNodes, Part.ReadIn] using htag
    · obtain ⟨us, hus, -⟩ := readsMarkup_raw hinline h
      unfold raw at h
      split at h
      · cases h
      · obtain ⟨⟨e, v⟩, h2, h⟩ := bind_eq_ok.mp h
        cases h
        refine told_push ht ?_
        simp only [Node.parts, List.forall_mem_cons, List.forall_mem_append]
        exact ⟨trivial, fun p hp => (htag p hp).widen (.done r) hus, trivial, by simp⟩
  · split at h
    · cases h
      refine told_push ht ?_
      simpa [Node.parts, partsOfNodes, Part.ReadIn] using htag
    · cases h
      simp only [parts, List.forall_mem_append, List.forall_mem_flatMap] at ht
      refine told_iff.mpr ⟨List.forall_mem_cons.mpr ⟨?_, ht.1⟩, by simp [partsOfNodes]⟩
      rw [Frame.parts, List.forall_mem_append]
      exact ⟨ht.2, htag⟩

theorem told_openBlock (hs : t.reading.startsWith ['{', '#'] = true) (h : t.openBlock = .ok u) :
    u.Told r := by
  obtain ⟨⟨tag, s⟩, h1, h⟩ := bind_eq_ok.mp h
  cases h
  simp only [parts, List.forall_mem_append, List.forall_mem_flatMap] at ht
  refine told_iff.mpr ⟨List.forall_mem_cons.mpr ⟨?_, ht.1⟩, by simp [partsOfNodes]⟩
  simp only [Frame.parts, List.forall_mem_append, List.forall_mem_singleton, partsOfBranches]
  exact ⟨ht.2, by simp, (Reading.readIn_readBlockTag rfl hs h1).widen hr (.done s)⟩

theorem told_nextBranch (hs : t.reading.startsWith ['{', ':'] = true) (h : t.nextBranch = .ok u) :
    u.Told r := by
  unfold nextBranch at h
  split at h
  · cases h
  · next keyword opened finished tag before frames hframes =>
    obtain ⟨⟨following, s⟩, h1, h⟩ := bind_eq_ok.mp h
    cases h
    simp only [parts, hframes, List.flatMap_cons, Frame.parts, List.forall_mem_append,
      List.forall_mem_singleton] at ht
    obtain ⟨⟨⟨hbefore, hfinished, htag⟩, hframes⟩, hdone⟩ := ht
    refine told_iff.mpr ⟨List.forall_mem_cons.mpr ⟨?_, List.forall_mem_flatMap.mp hframes⟩,
      by simp [partsOfNodes]⟩
    simp only [Frame.parts, partsOfBranches, List.forall_mem_append, List.forall_mem_cons,
      mem_partsOfNodes_reverse]
    exact ⟨hbefore, ⟨trivial, htag, hdone, hfinished⟩,
      (Reading.readIn_readBlockTag rfl hs h1).widen hr (.done s), by simp⟩
  · cases h

theorem told_endBlock (hs : t.reading.startsWith ['{', '/'] = true) (h : t.endBlock = .ok u) :
    u.Told r := by
  unfold endBlock at h
  split at h
  · cases h
  · next keyword opened finished tag before frames hframes =>
    obtain ⟨⟨closeTag, s⟩, h1, h⟩ := bind_eq_ok.mp h
    simp only at h
    split at h
    · cases h
    · cases h
      simp only [parts, hframes, List.flatMap_cons, Frame.parts, List.forall_mem_append,
        List.forall_mem_singleton] at ht
      obtain ⟨⟨⟨hbefore, hfinished, htag⟩, hframes⟩, hdone⟩ := ht
      refine told_iff.mpr ⟨List.forall_mem_flatMap.mp hframes, ?_⟩
      show ∀ p ∈ partsOfNodes (closeBlock closeTag tag t.done.reverse [] finished :: before), _
      rw [partsOfNodes, List.forall_mem_append]
      refine ⟨forall_parts_closeBlock (fun _ _ _ _ => trivial) (fun _ => trivial)
        ((Reading.readIn_readBlockTag rfl hs h1).widen hr (.done s)) htag ?_
        (by simp [partsOfBranches]) hfinished, hbefore⟩
      simpa only [mem_partsOfNodes_reverse] using hdone
  · cases h

end Step

/-- **A step adds parts that it reads.** -/
theorem told_step {ts : List Token} (hr : Reading.Reads r ts t.reading) (hfits : t.Fits)
    (hrest : t.reading.rest ≠ []) (h : t.step = .ok u) (ht : t.Told r) : u.Told r := by
  obtain ⟨us, hus⟩ := (grows_step hrest h hfits).1
  have ht := ht.mono hus
  have hbegins := begins_lead t.reading.rest
  rw [step_eq] at h
  generalize lead t.reading.rest = first at h hbegins
  cases first with
  | closeElement => exact told_closeElement ht h
  | nextBranch => exact told_nextBranch hr ht hbegins h
  | endBlock => exact told_endBlock hr ht hbegins h
  | comment => exact told_comment ht h
  | openElement => exact told_openElement hr ht hbegins.1 hbegins.2 h
  | openBlock => exact told_openBlock hr ht hbegins h
  | mustache => exact told_mustache hr ht hbegins h
  | text =>
    cases h
    exact told_push ht (by simp [Node.parts, Part.ReadIn])

theorem told_grow {ts : List Token} (hr : Reading.Reads r ts t.reading) (hfits : t.Fits)
    (h : t.grow = .ok u) (ht : t.Told r) : u.Told r := by
  fun_induction grow t generalizing ts with
  | case1 =>
    cases h
    exact ht
  | case2 => cases h
  | case3 t c rest hrest v hv ih =>
    have hne : t.reading.rest ≠ [] := by simp [hrest]
    have hgrows := grows_step hne hv hfits
    obtain ⟨us, hus⟩ := hgrows.1
    exact ih (hr.trans hus) (hgrows.2 hfits) h (told_step hr hfits hne hv ht)

end OpenTree

/-- **Every part of a document was read** from its text, and the tokens from there on are those of
the document. -/
theorem readIn_of_mem_parts {text : List Char} {d : Document} (h : Document.read text = .ok d) :
    ∃ s, s.tokens = d.tokens ∧ ∀ p ∈ d.parts, p.ReadIn (.start text) s := by
  obtain ⟨t, hgrow, hframes, -, htokens, hnodes, -⟩ := grow_of_read h
  have htold := OpenTree.told_grow (r := .start text) (.done _) (fits_start text) hgrow
    (by simp [OpenTree.Told, OpenTree.parts, OpenTree.start, partsOfNodes])
  refine ⟨t.reading, htokens.symm, fun p hp => (OpenTree.told_iff.mp htold).2 p ?_⟩
  rwa [Document.parts, hnodes, mem_partsOfNodes_reverse] at hp

end MarkupIndent.Markup
