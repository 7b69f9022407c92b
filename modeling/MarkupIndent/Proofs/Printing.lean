import MarkupIndent.Proofs.Replaced

/-!
# Reading what is printed

Trees of elements, control blocks, mustaches and text, with their names and words but without
tokens, are printed without any blanks but the one in a block tag. Reading what is printed gives the
tree back.

* `Sketch`, `Draft`: trees that are printed, and documents of them.
* `Sketch.print`: a tree as text.
* `Node.Shows`: a node that is read says what a sketch says, and its tokens are the words of the
  sketch.
* `readMustache_print`, `readStartTag_print` and the like: the tags of a sketch are read.
* `recovered`: so is a sketch, by steps that leave the open constructs as they were.
* `read_print`: **every draft is recovered**.
-/

namespace MarkupIndent.Markup

open Text

/-! ## Sketches -/

/-- A letter or a digit of names. -/
def isNamePart (c : Char) : Bool :=
  isAsciiLetter c || isAsciiDigit c

/-- The name of an element whose content is markup: a letter, then letters and digits. -/
structure ElementName where
  first : Char
  others : List Char
  letter : isAsciiLetter first = true
  parts : ∀ c ∈ others, isNamePart c = true
  not_void : isVoid (lower (first :: others)) = false
  not_raw : RawKind.ofName? (lower (first :: others)) = none

/-- The keyword of a control block: some letters. -/
structure Keyword where
  chars : List Char
  ne_nil : chars ≠ []
  letters : ∀ c ∈ chars, isAsciiLetter c = true

/-- An expression that is one name. -/
structure Identifier where
  first : Char
  others : List Char
  starts : isNameStart first = true
  parts : ∀ c ∈ others, (isNamePart c || c == '_' || c == '$') = true

/-- A text within a line, from a character that is not blank to one, without a sign of markup. -/
structure TextRun where
  chars : List Char
  inline : Inline chars
  no_tag : '<' ∉ chars
  no_brace : '{' ∉ chars

/-- The characters of a name. -/
def ElementName.chars (n : ElementName) : List Char :=
  n.first :: n.others

/-- The characters of an identifier. -/
def Identifier.chars (x : Identifier) : List Char :=
  x.first :: x.others

mutual

/-- A tree to print. A control block has a keyword and an expression, and so has each of its further
branches. -/
inductive Sketch where
  | text (run : TextRun)
  | mustache (x : Identifier)
  | element (name : ElementName) (children : List Sketch)
  | control (keyword : Keyword) (x : Identifier) (children : List Sketch)
      (branches : List SketchBranch)

/-- A further branch of a control block. -/
inductive SketchBranch where
  | mk (keyword : Keyword) (x : Identifier) (children : List Sketch)

end

/-- The first of some trees is text. -/
def beginsWithText : List Sketch → Bool
  | .text _ :: _ => true
  | _ => false

mutual

/-- No two texts stand next to each other in a tree. -/
def Sketch.Spaced : Sketch → Prop
  | .text _ => True
  | .mustache _ => True
  | .element _ children => AllSpaced children
  | .control _ _ children branches => AllSpaced children ∧ BranchesSpaced branches

/-- No two texts stand next to each other among some trees and in them. -/
def AllSpaced : List Sketch → Prop
  | [] => True
  | p :: rest => p.Spaced ∧ (beginsWithText [p] = true → beginsWithText rest = false) ∧
      AllSpaced rest

/-- No two texts stand next to each other in some branches. -/
def BranchesSpaced : List SketchBranch → Prop
  | [] => True
  | .mk _ _ children :: rest => AllSpaced children ∧ BranchesSpaced rest

end

/-- A document to print. -/
structure Draft where
  nodes : List Sketch
  spaced : AllSpaced nodes

/-- The tag that begins a branch of a control block. -/
def printBlockTag (sign : Char) (keyword : Keyword) (x : Identifier) : List Char :=
  '{' :: sign :: (keyword.chars ++ ' ' :: (x.chars ++ ['}']))

mutual

/-- A tree as text. -/
def Sketch.print : Sketch → List Char
  | .text run => run.chars
  | .mustache x => '{' :: (x.chars ++ ['}'])
  | .element name children =>
    '<' :: (name.chars ++ '>' :: (printAll children ++ '<' :: '/' :: (name.chars ++ ['>'])))
  | .control keyword x children branches =>
    printBlockTag '#' keyword x ++ (printAll children ++ (printBranches branches ++
      '{' :: '/' :: (keyword.chars ++ ['}'])))

/-- Trees as text, one behind the other. -/
def printAll : List Sketch → List Char
  | [] => []
  | p :: rest => p.print ++ printAll rest

/-- Further branches as text. -/
def printBranches : List SketchBranch → List Char
  | [] => []
  | .mk keyword x children :: rest =>
    printBlockTag ':' keyword x ++ (printAll children ++ printBranches rest)

end

/-- A document as text. -/
def Draft.print (d : Draft) : List Char :=
  printAll d.nodes

/-! ## What a tree shows -/

/-- The kind and the text of a token. -/
def Token.word (t : Token) : TokenKind × List Char :=
  (t.kind, t.text)

/-- The tokens from an index on are some words. -/
def Spells (tokens : Array Token) : Nat → List (TokenKind × List Char) → Prop
  | _, [] => True
  | i, word :: rest => Stands tokens i word.1 word.2 ∧ Spells tokens (i + 1) rest

/-- The words of a mustache around an identifier. -/
def mustacheWords (x : Identifier) : List (TokenKind × List Char) :=
  [(.punctuator, ['{']), (.expression, x.chars), (.punctuator, ['}'])]

/-- The words of the tag that begins a branch. -/
def blockTagWords (sign : Char) (keyword : Keyword) (x : Identifier) :
    List (TokenKind × List Char) :=
  [(.punctuator, ['{', sign]), (.name, keyword.chars), (.expression, x.chars),
    (.punctuator, ['}'])]

/-- The words of the tag that ends a control block. -/
def closeTagWords (keyword : Keyword) : List (TokenKind × List Char) :=
  [(.punctuator, ['{', '/']), (.name, keyword.chars), (.punctuator, ['}'])]

/-- The words of the start tag of an element. -/
def startTagWords (name : ElementName) : List (TokenKind × List Char) :=
  [(.punctuator, ['<']), (.name, name.chars), (.punctuator, ['>'])]

/-- The words of the end tag of an element. -/
def endTagWords (name : ElementName) : List (TokenKind × List Char) :=
  [(.punctuator, ['<', '/']), (.name, name.chars), (.punctuator, ['>'])]

mutual

/-- A node says what a sketch says: it is of the same sort, with the same name or keyword, its
tokens are the words of the sketch, and its children and branches show those of the sketch in
order. -/
def Node.Shows (tokens : Array Token) : Node → Sketch → Prop
  | .text first last, .text run =>
    last = first ∧ Spells tokens first [(.htmlText, run.chars)]
  | .mustache m, .mustache x =>
    m = ⟨Reading.plainKind, m.first, m.first + 2⟩ ∧ Spells tokens m.first (mustacheWords x)
  | .element name tag children (some e), .element n sketches =>
    name = n.chars ∧ tag = ⟨tag.first, tag.first + 2, tag.first + 1, [], false⟩ ∧
      Spells tokens tag.first (startTagWords n) ∧ NodesShow tokens children sketches ∧
      e = ⟨e.first, e.first + 2⟩ ∧ Spells tokens e.first (endTagWords n)
  | .control openTag children branches closeTag, .control keyword x sketches further =>
    openTag = ⟨keyword.chars, openTag.first, openTag.first + 3⟩ ∧
      Spells tokens openTag.first (blockTagWords '#' keyword x) ∧
      NodesShow tokens children sketches ∧ BranchesShow tokens branches further ∧
      closeTag = ⟨keyword.chars, closeTag.first, closeTag.first + 2⟩ ∧
      Spells tokens closeTag.first (closeTagWords keyword)
  | _, _ => False

/-- Nodes show sketches, one by one. -/
def NodesShow (tokens : Array Token) : List Node → List Sketch → Prop
  | [], [] => True
  | n :: nodes, p :: sketches => n.Shows tokens p ∧ NodesShow tokens nodes sketches
  | _, _ => False

/-- Branches show those of a sketch, one by one. -/
def BranchesShow (tokens : Array Token) : List Branch → List SketchBranch → Prop
  | [], [] => True
  | .mk tag children :: branches, .mk keyword x sketches :: further =>
    tag = ⟨keyword.chars, tag.first, tag.first + 3⟩ ∧
      Spells tokens tag.first (blockTagWords ':' keyword x) ∧
      NodesShow tokens children sketches ∧ BranchesShow tokens branches further
  | _, _ => False

end

theorem Spells.mono {tokens more : Array Token} (he : Extends tokens more) {i : Nat}
    {words : List (TokenKind × List Char)} (h : Spells tokens i words) : Spells more i words := by
  induction words generalizing i with
  | nil => trivial
  | cons word rest ih => exact ⟨h.1.mono he, ih h.2⟩

mutual

theorem Node.Shows.mono {tokens more : Array Token} (he : Extends tokens more) :
    (n : Node) → (p : Sketch) → n.Shows tokens p → n.Shows more p
  | .text _ _, .text _, h => ⟨h.1, h.2.mono he⟩
  | .mustache _, .mustache _, h => ⟨h.1, h.2.mono he⟩
  | .element _ _ children (some _), .element _ sketches, h => by
    obtain ⟨h1, h2, h3, h4, h5, h6⟩ := h
    exact ⟨h1, h2, h3.mono he, NodesShow.mono he children sketches h4, h5, h6.mono he⟩
  | .control _ children branches _, .control _ _ sketches further, h => by
    obtain ⟨h1, h2, h3, h4, h5, h6⟩ := h
    exact ⟨h1, h2.mono he, NodesShow.mono he children sketches h3,
      BranchesShow.mono he branches further h4, h5, h6.mono he⟩

theorem NodesShow.mono {tokens more : Array Token} (he : Extends tokens more) :
    (nodes : List Node) → (sketches : List Sketch) → NodesShow tokens nodes sketches →
      NodesShow more nodes sketches
  | [], [], _ => trivial
  | n :: nodes, p :: sketches, h =>
    ⟨Node.Shows.mono he n p h.1, NodesShow.mono he nodes sketches h.2⟩

theorem BranchesShow.mono {tokens more : Array Token} (he : Extends tokens more) :
    (branches : List Branch) → (further : List SketchBranch) →
      BranchesShow tokens branches further → BranchesShow more branches further
  | [], [], _ => trivial
  | .mk _ children :: branches, .mk _ _ sketches :: further, h => by
    obtain ⟨h1, h2, h3, h4⟩ := h
    exact ⟨h1, h2.mono he, NodesShow.mono he children sketches h3,
      BranchesShow.mono he branches further h4⟩

end

/-! ## Words of names -/

theorem isNamePart_cases {c : Char} (h : isNamePart c = true) :
    c.toNat < 0x80 ∧ isWord c = true := by
  have hlt : c.toNat < 0x80 := by
    simp only [isNamePart, isAsciiLetter, isAsciiDigit, Bool.or_eq_true, Bool.and_eq_true,
      decide_eq_true_eq] at h
    omega
  refine ⟨hlt, ?_⟩
  rw [isNamePart] at h
  rw [isWord, if_pos hlt, h, Bool.true_or]

theorem not_isDigit_of_isNameStart {c : Char} (h : isNameStart c = true) : isDigit c = false := by
  simp only [isNameStart, Bool.or_eq_true, beq_iff_eq] at h
  rcases h with (h | rfl) | rfl
  · simp only [isAsciiLetter, Bool.or_eq_true, Bool.and_eq_true, decide_eq_true_eq] at h
    have hdigit : isAsciiDigit c = false := by
      simp only [isAsciiDigit, Bool.and_eq_false_iff, decide_eq_false_iff_not]
      omega
    rw [isDigit, digitValue?, hdigit, if_neg (by simp), if_pos (by omega)]
    rfl
  · decide
  · decide

theorem isTagNameChar_of_isNamePart {c : Char} (h : isNamePart c = true) :
    isTagNameChar c = true := by
  simp [isTagNameChar, (isNamePart_cases h).2]

/-- Names and words end where a character stands that they cannot have. -/
theorem takeWhile_word {p : Char → Bool} {word rest : List Char} {d : Char}
    (hw : ∀ c ∈ word, p c = true) (hd : p d = false) :
    (word ++ d :: rest).takeWhile p = word := by
  rw [List.takeWhile_append_of_pos hw, List.takeWhile_cons_of_neg (by simp [hd]), List.append_nil]

theorem ElementName.tagNameLength (n : ElementName) {d : Char} (hd : isTagNameChar d = false)
    (rest : List Char) : tagNameLength (n.chars ++ d :: rest) = n.chars.length := by
  rw [chars, List.cons_append, Markup.tagNameLength, if_pos n.letter,
    takeWhile_word (fun c hc => isTagNameChar_of_isNamePart (n.parts c hc)) hd, List.length_cons,
    Nat.add_comm]

theorem Identifier.first_ne (x : Identifier) (sign : Char) (h : isNameStart sign = false) :
    x.first ≠ sign := by
  intro heq
  have := x.starts
  rw [heq, h] at this
  cases this

theorem Identifier.not_isBlank (x : Identifier) : isBlank x.first = false := by
  have h := x.starts
  simp only [isNameStart, Bool.or_eq_true, beq_iff_eq] at h
  rcases h with (h | h) | h
  · exact not_isBlank_of_isAsciiLetter h
  · rw [h]
    decide
  · rw [h]
    decide

/-- A name is a token of an expression by itself. -/
theorem Identifier.expressionLexeme (x : Identifier) (rest : List Char) :
    expressionLexeme x.first (x.others ++ '}' :: rest) = (.expression, x.others.length) := by
  have hquote : isQuote x.first = false := by
    rw [Bool.eq_false_iff]
    intro hq
    rcases isQuote_cases hq with h | h | h <;> exact x.first_ne _ (by decide) h
  have hothers : ∀ c ∈ x.others, (isWord c || c == '$') = true := by
    intro c hc
    have h := x.parts c hc
    simp only [Bool.or_eq_true, beq_iff_eq] at h ⊢
    rcases h with (h | rfl) | rfl
    · exact .inl (isNamePart_cases h).2
    · exact .inl (by decide)
    · exact .inr rfl
  rw [Markup.expressionLexeme, hquote, if_neg (by simp)]
  simp only [not_isDigit_of_isNameStart x.starts, Bool.false_eq_true, if_false, x.starts, if_true,
    takeWhile_word hothers (show (isWord '}' || '}' == '$') = false by decide)]

/-! ## Reading tags -/

namespace Reading

variable {r s t : Reading} {rest : List Char}

/-- One reading goes on to another, and the tokens between them are some words. -/
def Takes (r : Reading) (words : List (TokenKind × List Char)) (s : Reading) : Prop :=
  ∃ ts : List Token, s.tokens = r.tokens ++ ts.toArray ∧ ts.map Token.word = words

theorem Takes.trans {words more : List (TokenKind × List Char)} (h : r.Takes words s)
    (h' : s.Takes more t) : r.Takes (words ++ more) t := by
  obtain ⟨ts, hts, rfl⟩ := h
  obtain ⟨us, hus, rfl⟩ := h'
  exact ⟨ts ++ us, by rw [hus, hts]; simp, List.map_append⟩

theorem Takes.extends {words : List (TokenKind × List Char)} (h : r.Takes words s) :
    Extends r.tokens s.tokens := by
  obtain ⟨ts, hts, -⟩ := h
  intro i u hu
  rw [hts, Array.getElem?_append_left (Array.getElem?_eq_some_iff.mp hu).1, hu]

theorem Takes.next {words : List (TokenKind × List Char)} (h : r.Takes words s) :
    s.next = r.next + words.length := by
  obtain ⟨ts, hts, rfl⟩ := h
  simp [Reading.next, hts]

/-- What is taken stands from the next index on. -/
theorem Takes.spells {words : List (TokenKind × List Char)} (h : r.Takes words s) :
    Spells s.tokens r.next words := by
  obtain ⟨ts, hts, rfl⟩ := h
  suffices hsplit : ∀ (us ts : List Token), s.tokens.toList = us ++ ts →
      Spells s.tokens us.length (ts.map Token.word) by
    simpa [Reading.next] using hsplit r.tokens.toList ts (by rw [hts]; simp)
  intro us ts
  induction ts generalizing us with
  | nil => exact fun _ => trivial
  | cons t ts ih =>
    intro h
    refine ⟨⟨t, ?_, rfl, rfl⟩, ?_⟩
    · rw [← Array.getElem?_toList, h]
      simp
    · have := ih (us ++ [t]) (by rw [h]; simp)
      rwa [List.length_append] at this

theorem takes_emit (kind : TokenKind) {word : List Char} {n : Nat} (hn : word.length = n)
    (h : r.rest = word ++ rest) :
    r.Takes [(kind, word)] (r.emit kind n) ∧ (r.emit kind n).rest = rest := by
  subst hn
  refine ⟨⟨[r.token kind word.length], by simp, ?_⟩, by rw [rest_emit, h, List.drop_left' rfl]⟩
  simp [Token.word, token, h]

theorem skipBlanks_of_rest {c : Char} (h : r.rest = c :: rest) (hc : isBlank c = false) :
    r.skipBlanks = r := by
  rw [skipBlanks, h, List.takeWhile_cons_of_neg (by simp [hc])]
  simp [skip]

theorem readExpression_close (opened : Cursor) (h : r.rest = '}' :: rest) :
    ∃ s, readExpression opened 0 r = .ok s ∧ r.Takes [(.punctuator, ['}'])] s ∧ s.rest = rest := by
  have hskip := skipBlanks_of_rest h (by decide)
  obtain ⟨htakes, hrest⟩ :=
    takes_emit .punctuator (n := 1) rfl (show r.rest = ['}'] ++ rest from h)
  exact ⟨_, by rw [readExpression_cons (hskip.symm ▸ h), if_pos ⟨rfl, rfl⟩, hskip], htakes, hrest⟩

theorem readExpression_print (opened : Cursor) {x : Identifier}
    (h : r.skipBlanks.rest = x.chars ++ '}' :: rest) :
    ∃ s, readExpression opened 0 r = .ok s ∧
      r.Takes [(.expression, x.chars), (.punctuator, ['}'])] s ∧ s.rest = rest := by
  have hcons : r.skipBlanks.rest = x.first :: (x.others ++ '}' :: rest) := h
  obtain ⟨htakes, hrest⟩ := takes_emit .expression (n := x.others.length + 1) rfl h
  obtain ⟨s, hs, hclose, hend⟩ := readExpression_close opened hrest
  have hdepth : braceDepth 0 .expression (x.first :: x.others) = 0 := by simp [braceDepth]
  refine ⟨s, ?_, htakes.trans hclose, hend⟩
  rw [readExpression_cons hcons, if_neg fun hd => x.first_ne '}' (by decide) hd.1,
    x.expressionLexeme, List.take_left' rfl, hdepth]
  exact hs

theorem readKeyword_print {keyword : Keyword} {d : Char} (hd : isAsciiLetter d = false)
    (h : r.rest = keyword.chars ++ d :: rest) :
    ∃ s, readKeyword r = .ok (keyword.chars, s) ∧ r.Takes [(.name, keyword.chars)] s ∧
      s.rest = d :: rest := by
  obtain ⟨c, cs, hc⟩ := List.exists_cons_of_ne_nil keyword.ne_nil
  have hblank := not_isBlank_of_isAsciiLetter (keyword.letters c (by simp [hc]))
  have hskip : r.skipBlanks = r := skipBlanks_of_rest (by rw [h, hc, List.cons_append]) hblank
  obtain ⟨htakes, hrest⟩ := takes_emit .name rfl h
  refine ⟨_, ?_, htakes, hrest⟩
  have hne : keyword.chars.isEmpty = false := by simpa using keyword.ne_nil
  simp only [readKeyword, hskip, h, takeWhile_word keyword.letters hd, hne, Bool.false_eq_true,
    if_false]

/-- The index of the last token that is taken. -/
theorem Takes.last {words : List (TokenKind × List Char)} {n : Nat} (h : r.Takes words s)
    (hn : words.length = n + 1) : s.last = r.next + n := by
  have := h.next
  simp only [Reading.next] at this
  simp only [Reading.last, Reading.next]
  omega

theorem readMustache_print {x : Identifier} (h : r.rest = '{' :: (x.chars ++ '}' :: rest)) :
    ∃ s, readMustache r = .ok (⟨plainKind, r.next, r.next + 2⟩, s) ∧
      r.Takes (mustacheWords x) s ∧ s.rest = rest := by
  have hat : r.startsWith ['{', '@'] = false := by
    have hne := beq_false_of_ne (x.first_ne '@' (by decide)).symm
    simp [startsWith, h, Identifier.chars, List.isPrefixOf, hne]
  obtain ⟨hopen, hrest⟩ :=
    takes_emit .punctuator (n := 1) rfl (show r.rest = ['{'] ++ (x.chars ++ '}' :: rest) from h)
  have hskip : (r.emit .punctuator 1).skipBlanks = r.emit .punctuator 1 :=
    skipBlanks_of_rest hrest x.not_isBlank
  obtain ⟨s, hs, hexpr, hend⟩ := readExpression_print r.place (hskip.symm ▸ hrest)
  have htakes := hopen.trans hexpr
  refine ⟨s, ?_, htakes, hend⟩
  rw [readMustache, if_neg (by simp [hat]), hs]
  show Except.ok (_, s) = _
  rw [htakes.last (n := 2) rfl]

/-- A tag of a block is its sign, its keyword, and an expression. -/
theorem readBlockTag_print {sign d : Char} {keyword : Keyword} {tail : List Char}
    (words : List (TokenKind × List Char)) (hd : isAsciiLetter d = false)
    (h : r.rest = '{' :: sign :: (keyword.chars ++ d :: tail))
    (hexpr : ∀ t : Reading, t.rest = d :: tail → ∃ s, readExpression r.place 0 t = .ok s ∧
      t.Takes words s ∧ s.rest = rest) :
    ∃ s, readBlockTag r = .ok (⟨keyword.chars, r.next, r.next + 1 + words.length⟩, s) ∧
      r.Takes ((.punctuator, ['{', sign]) :: (.name, keyword.chars) :: words) s ∧
      s.rest = rest := by
  obtain ⟨hopen, hrest⟩ := takes_emit .punctuator (n := 2) rfl
    (show r.rest = ['{', sign] ++ (keyword.chars ++ d :: tail) from h)
  obtain ⟨t, hword, hkeyword, ht⟩ := readKeyword_print hd hrest
  obtain ⟨s, hs, hwords, hend⟩ := hexpr t ht
  have htakes := (hopen.trans hkeyword).trans hwords
  refine ⟨s, ?_, htakes, hend⟩
  rw [readBlockTag, hword]
  show (readExpression r.place 0 t >>= fun s => _) = _
  rw [hs]
  show Except.ok (_, s) = _
  rw [htakes.last (n := 1 + words.length) (by simp; omega), Nat.add_assoc]

theorem readBlockTag_opening {sign : Char} {keyword : Keyword} {x : Identifier}
    (h : r.rest = printBlockTag sign keyword x ++ rest) :
    ∃ s, readBlockTag r = .ok (⟨keyword.chars, r.next, r.next + 3⟩, s) ∧
      r.Takes (blockTagWords sign keyword x) s ∧ s.rest = rest := by
  have hwhole : r.rest = '{' :: sign :: (keyword.chars ++ ' ' :: (x.chars ++ '}' :: rest)) := by
    rw [h]
    simp [printBlockTag]
  refine readBlockTag_print [(.expression, x.chars), (.punctuator, ['}'])] (by decide) hwhole
    fun t ht => readExpression_print _ ?_
  rw [rest_skipBlanks, ht, List.dropWhile_cons_of_pos (by decide), Identifier.chars,
    List.cons_append, List.dropWhile_cons_of_neg (by simp [x.not_isBlank])]

theorem readBlockTag_closing {keyword : Keyword}
    (h : r.rest = '{' :: '/' :: (keyword.chars ++ '}' :: rest)) :
    ∃ s, readBlockTag r = .ok (⟨keyword.chars, r.next, r.next + 2⟩, s) ∧
      r.Takes (closeTagWords keyword) s ∧ s.rest = rest :=
  readBlockTag_print [(.punctuator, ['}'])] (by decide) h fun _ ht => readExpression_close _ ht

theorem readStartTag_print {n : ElementName} (h : r.rest = '<' :: (n.chars ++ '>' :: rest)) :
    ∃ s, readStartTag r = .ok (⟨r.next, r.next + 2, r.next + 1, [], false⟩, n.chars, s) ∧
      r.Takes (startTagWords n) s ∧ s.rest = rest := by
  obtain ⟨hopen, hrest⟩ :=
    takes_emit .punctuator (n := 1) rfl (show r.rest = ['<'] ++ (n.chars ++ '>' :: rest) from h)
  obtain ⟨hname, htail⟩ := takes_emit .name rfl hrest
  obtain ⟨hclose, hend⟩ :=
    takes_emit .punctuator (n := 1) rfl (show _ = ['>'] ++ rest from htail)
  have htakes := (hopen.trans hname).trans hclose
  refine ⟨_, ?_, htakes, hend⟩
  have hskip := skipBlanks_of_rest htail (by decide)
  have hnamed : (r.emit .punctuator 1).rest.take (tagNameLength (r.emit .punctuator 1).rest) =
      n.chars := by
    rw [hrest, n.tagNameLength (by decide), List.take_left' rfl]
  have hattributes := readAttributes_cons [] (hskip.symm ▸ htail)
  rw [hskip, startsWith, startsWith, htail] at hattributes
  rw [readStartTag, hnamed, hattributes]
  show Except.ok (_, _) = _
  rw [htakes.last (n := 2) rfl]

theorem readEndTag_print {n : ElementName} (h : r.rest = '<' :: '/' :: (n.chars ++ '>' :: rest)) :
    ∃ s, readEndTag n.chars r = .ok (⟨r.next, r.next + 2⟩, s) ∧ r.Takes (endTagWords n) s ∧
      s.rest = rest := by
  obtain ⟨hopen, hrest⟩ := takes_emit .punctuator (n := 2) rfl
    (show r.rest = ['<', '/'] ++ (n.chars ++ '>' :: rest) from h)
  obtain ⟨hname, htail⟩ := takes_emit .name rfl hrest
  obtain ⟨hclose, hend⟩ :=
    takes_emit .punctuator (n := 1) rfl (show _ = ['>'] ++ rest from htail)
  have htakes := (hopen.trans hname).trans hclose
  refine ⟨_, ?_, htakes, hend⟩
  have hopened : (r.emit .punctuator 2).skipBlanks = r.emit .punctuator 2 :=
    skipBlanks_of_rest hrest (not_isBlank_of_isAsciiLetter n.letter)
  have hskip := skipBlanks_of_rest htail (by decide)
  have hlength : tagNameLength (r.emit .punctuator 2).rest = n.chars.length := by
    rw [hrest, n.tagNameLength (by decide)]
  have hnamed : (r.emit .punctuator 2).rest.take n.chars.length = n.chars := by
    rw [hrest, List.take_left' rfl]
  have hgt : ((r.emit .punctuator 2).emit .name n.chars.length).startsWith ['>'] = true := by
    rw [startsWith, htail]
    rfl
  simp only [readEndTag, hopened, hlength, hnamed, hskip, hgt, ne_eq, not_true_eq_false, if_false,
    if_true, htakes.last (n := 2) rfl]

end Reading

/-! ## Steps over a printed tree -/

theorem lead_mustache (x : Identifier) (rest : List Char) :
    lead ('{' :: (x.chars ++ rest)) = .mustache := by
  have hne : ∀ sign, isNameStart sign = false → (sign == x.first) = false := fun sign h =>
    beq_false_of_ne (x.first_ne sign h).symm
  simp [lead, List.isPrefixOf, Identifier.chars, hne ':' (by decide), hne '/' (by decide),
    hne '#' (by decide)]

theorem lead_openElement (n : ElementName) (rest : List Char) :
    lead ('<' :: (n.chars ++ '>' :: rest)) = .openElement := by
  have hne : ∀ sign, isAsciiLetter sign = false → (sign == n.first) = false := by
    intro sign h
    refine beq_false_of_ne ?_
    rintro rfl
    rw [n.letter] at h
    cases h
  have hname : tagNameLength (n.first :: (n.others ++ '>' :: rest)) ≠ 0 := by
    have := n.tagNameLength (show isTagNameChar '>' = false by decide) rest
    rw [ElementName.chars, List.cons_append] at this
    rw [this, List.length_cons]
    omega
  simp [lead, List.isPrefixOf, ElementName.chars, hne '/' (by decide), hne '!' (by decide), hname]

namespace OpenTree

variable {t u v : OpenTree} {rest : List Char}

/-- A tree grows by some nodes, with the same constructs open as before, and a rest is left. -/
structure Recovers (t : OpenTree) (nodes : List Node) (rest : List Char) (u : OpenTree) : Prop where
  becomes : t.Becomes u
  frames : u.frames = t.frames
  done : u.done = nodes.reverse ++ t.done
  rest : u.reading.rest = rest
  tokens : Extends t.reading.tokens u.reading.tokens

theorem Recovers.trans {nodes more : List Node} {mid : List Char} (h : t.Recovers nodes mid u)
    (h' : u.Recovers more rest v) : t.Recovers (nodes ++ more) rest v where
  becomes := h.becomes.trans h'.becomes
  frames := h'.frames.trans h.frames
  done := by rw [h'.done, h.done, List.reverse_append, List.append_assoc]
  rest := h'.rest
  tokens := h.tokens.trans h'.tokens

/-- A step over what begins with a sign. -/
theorem steps_of_lead {c : Char} (first : Lead) (h : t.reading.rest = c :: rest)
    (hlead : lead (c :: rest) = first) (hstep : t.stepBy first = .ok u) : t.Steps u :=
  ⟨by simp [h], by rw [step_eq, h, hlead, hstep]⟩

theorem recovers_text {run : TextRun} (hends : Ends rest)
    (h : t.reading.rest = run.chars ++ rest) :
    ∃ u n, t.Recovers [n] rest u ∧ n.Shows u.reading.tokens (.text run) := by
  have hprose := prose_of_not_mem run.no_tag run.no_brace rest
  have hstart : endsText t.reading.rest = false := by
    rw [h]
    cases hchars : run.chars with
    | nil => exact absurd hchars run.inline.1.ne_nil
    | cons c chars =>
      rw [hchars] at hprose
      exact hprose.1
  have hread : t.text.reading = t.reading.emit .htmlText run.chars.length := by
    have hcontent : stretches (run.chars ++ []) = _ := stretches_content run.inline rfl
    rw [List.append_nil, stretches_nil] at hcontent
    rw [reading_text h run.inline.1.ne_nil hprose hends, Reading.run, h, List.take_left' rfl,
      hcontent]
    rfl
  obtain ⟨htakes, hrest⟩ := Reading.takes_emit .htmlText rfl h
  rw [← hread] at htakes hrest
  have hsteps : t.Steps t.text := ⟨by rw [h]; simp [run.inline.1.ne_nil], step_text hstart⟩
  refine ⟨t.text, _, ⟨.single hsteps, rfl, rfl, hrest, htakes.extends⟩, ?_, htakes.spells⟩
  exact htakes.last (n := 0) rfl

theorem recovers_mustache {x : Identifier}
    (h : t.reading.rest = '{' :: (x.chars ++ '}' :: rest)) :
    ∃ u n, t.Recovers [n] rest u ∧ n.Shows u.reading.tokens (.mustache x) := by
  obtain ⟨s, hs, htakes, hrest⟩ := Reading.readMustache_print h
  have hsteps : t.Steps (t.push (.mustache ⟨Reading.plainKind, t.reading.next,
      t.reading.next + 2⟩) s) := by
    refine steps_of_lead .mustache h (lead_mustache x _) ?_
    show t.mustache = _
    rw [mustache, hs]
    rfl
  exact ⟨_, _, ⟨.single hsteps, rfl, rfl, hrest, htakes.extends⟩, rfl, htakes.spells⟩

/-- A step reads some words, and a rest is left. -/
structure StepsOver (t : OpenTree) (words : List (TokenKind × List Char)) (rest : List Char)
    (u : OpenTree) : Prop where
  steps : t.Steps u
  takes : t.reading.Takes words u.reading
  rest : u.reading.rest = rest

/-! ### Elements -/

theorem steps_openElement {n : ElementName}
    (h : t.reading.rest = '<' :: (n.chars ++ '>' :: rest)) :
    ∃ u, t.StepsOver (startTagWords n) rest u ∧ u.done = [] ∧
      u.frames = .element n.chars ⟨t.reading.next, t.reading.next + 2, t.reading.next + 1, [],
        false⟩ t.reading.place t.done :: t.frames := by
  obtain ⟨s, hs, htakes, hrest⟩ := Reading.readStartTag_print h
  have hvoid : isVoid (lower n.chars) = false := n.not_void
  have hraw : RawKind.ofName? (lower n.chars) = none := n.not_raw
  refine ⟨⟨_, _, s⟩, ⟨steps_of_lead .openElement h (lead_openElement n rest) ?_, htakes, hrest⟩,
    rfl, rfl⟩
  show t.openElement = _
  rw [openElement, hs]
  simp only [bind, Except.bind, hraw, hvoid, Bool.or_false, Bool.false_eq_true, if_false]

theorem steps_closeElement {n : ElementName} {tag : StartTag} {opened : Cursor}
    {before : List Node} {frames : List Frame}
    (hframes : t.frames = .element n.chars tag opened before :: frames)
    (h : t.reading.rest = '<' :: '/' :: (n.chars ++ '>' :: rest)) :
    ∃ u, t.StepsOver (endTagWords n) rest u ∧ u.frames = frames ∧
      u.done = .element n.chars tag t.done.reverse
        (some ⟨t.reading.next, t.reading.next + 2⟩) :: before := by
  obtain ⟨s, hs, htakes, hrest⟩ := Reading.readEndTag_print h
  refine ⟨⟨_, _, s⟩, ⟨steps_of_lead .closeElement h rfl ?_, htakes, hrest⟩, rfl, rfl⟩
  show t.closeElement = _
  simp only [closeElement, hframes, hs, bind, Except.bind]

/-- Some trees are read whatever ends the text behind them. -/
def Recovered (sketches : List Sketch) : Prop :=
  ∀ (t : OpenTree) (rest : List Char), Ends rest → t.reading.rest = printAll sketches ++ rest →
    ∃ u nodes, t.Recovers nodes rest u ∧ NodesShow u.reading.tokens nodes sketches

theorem recovers_element {n : ElementName} {children : List Sketch}
    (hchildren : Recovered children)
    (h : t.reading.rest = (Sketch.element n children).print ++ rest) :
    ∃ u m, t.Recovers [m] rest u ∧ m.Shows u.reading.tokens (.element n children) := by
  have hwhole : t.reading.rest = '<' :: (n.chars ++ '>' :: (printAll children ++
      '<' :: '/' :: (n.chars ++ '>' :: rest))) := by
    rw [h]
    simp [Sketch.print]
  obtain ⟨s, hopen, hsdone, hsframes⟩ := steps_openElement hwhole
  obtain ⟨u, nodes, hu, hshow⟩ := hchildren _ _ (.inr rfl) hopen.rest
  obtain ⟨v, hclose, hvframes, hvdone⟩ :=
    steps_closeElement (hu.frames.trans hsframes) hu.rest
  rw [hu.done, hsdone, List.append_nil, List.reverse_reverse] at hvdone
  have hlater := hu.tokens.trans hclose.takes.extends
  exact ⟨v, _, ⟨.head hopen.steps (hu.becomes.tail hclose.steps), hvframes, hvdone, hclose.rest,
    hopen.takes.extends.trans hlater⟩, rfl, rfl, hopen.takes.spells.mono hlater,
    NodesShow.mono hclose.takes.extends nodes children hshow, rfl, hclose.takes.spells⟩

/-! ### Control blocks -/

theorem steps_openBlock {keyword : Keyword} {x : Identifier}
    (h : t.reading.rest = printBlockTag '#' keyword x ++ rest) :
    ∃ u, t.StepsOver (blockTagWords '#' keyword x) rest u ∧ u.done = [] ∧
      u.frames = .block keyword.chars t.reading.place []
        ⟨keyword.chars, t.reading.next, t.reading.next + 3⟩ t.done :: t.frames := by
  obtain ⟨s, hs, htakes, hrest⟩ := Reading.readBlockTag_opening h
  refine ⟨⟨_, _, s⟩, ⟨steps_of_lead .openBlock h rfl ?_, htakes, hrest⟩, rfl, rfl⟩
  show t.openBlock = _
  rw [openBlock, hs]
  rfl

theorem steps_nextBranch {keyword : Keyword} {x : Identifier} {word : List Char} {opened : Cursor}
    {finished : List Branch} {tag : BlockTag} {before : List Node} {frames : List Frame}
    (hframes : t.frames = .block word opened finished tag before :: frames)
    (h : t.reading.rest = printBlockTag ':' keyword x ++ rest) :
    ∃ u, t.StepsOver (blockTagWords ':' keyword x) rest u ∧ u.done = [] ∧
      u.frames = .block word opened (.mk tag t.done.reverse :: finished)
        ⟨keyword.chars, t.reading.next, t.reading.next + 3⟩ before :: frames := by
  obtain ⟨s, hs, htakes, hrest⟩ := Reading.readBlockTag_opening h
  refine ⟨⟨_, _, s⟩, ⟨steps_of_lead .nextBranch h rfl ?_, htakes, hrest⟩, rfl, rfl⟩
  show t.nextBranch = _
  simp only [nextBranch, hframes, hs, bind, Except.bind]

theorem steps_endBlock {keyword : Keyword} {opened : Cursor} {finished : List Branch}
    {tag : BlockTag} {before : List Node} {frames : List Frame}
    (hframes : t.frames = .block keyword.chars opened finished tag before :: frames)
    (h : t.reading.rest = '{' :: '/' :: (keyword.chars ++ '}' :: rest)) :
    ∃ u, t.StepsOver (closeTagWords keyword) rest u ∧ u.frames = frames ∧
      u.done = closeBlock ⟨keyword.chars, t.reading.next, t.reading.next + 2⟩ tag t.done.reverse []
        finished :: before := by
  obtain ⟨s, hs, htakes, hrest⟩ := Reading.readBlockTag_closing h
  refine ⟨⟨_, _, s⟩, ⟨steps_of_lead .endBlock h rfl ?_, htakes, hrest⟩, rfl, rfl⟩
  show t.endBlock = _
  simp only [endBlock, hframes, hs, bind, Except.bind, ne_eq, not_true_eq_false, if_false]

/-- The branches of an open block so far, the open one included. -/
def branchesSoFar (finished : List Branch) (tag : BlockTag) (children : List Node) : List Branch :=
  finished.reverse ++ [.mk tag children]

/-- A block is closed with all its branches. -/
theorem closeBlock_of_branches {closeTag tag first : BlockTag} {children inner : List Node}
    {finished branches : List Branch}
    (h : branchesSoFar finished tag children = .mk first inner :: branches) :
    closeBlock closeTag tag children [] finished = .control first inner branches closeTag := by
  suffices hlater : ∀ (later : List Branch) (tag : BlockTag) (children : List Node),
      finished.reverse ++ .mk tag children :: later = .mk first inner :: branches →
        closeBlock closeTag tag children later finished =
          .control first inner branches closeTag from
    hlater [] tag children h
  clear h
  induction finished with
  | nil =>
    intro later tag children h
    cases h
    rfl
  | cons b earlier ih =>
    intro later tag children h
    rw [List.reverse_cons, List.append_assoc, List.singleton_append] at h
    cases b
    exact ih _ _ _ h

/-- Further branches of a block are read whatever ends the text behind them. -/
def RecoveredBranches (further : List SketchBranch) : Prop :=
  ∀ (t : OpenTree) (rest word : List Char) (opened : Cursor) (finished : List Branch)
    (tag : BlockTag) (before : List Node) (frames : List Frame), Ends rest →
    t.frames = .block word opened finished tag before :: frames →
    t.reading.rest = printBranches further ++ rest →
    ∃ u finished' tag' branches, t.Becomes u ∧
      u.frames = .block word opened finished' tag' before :: frames ∧
      branchesSoFar finished' tag' u.done.reverse =
        branchesSoFar finished tag t.done.reverse ++ branches ∧
      u.reading.rest = rest ∧ Extends t.reading.tokens u.reading.tokens ∧
      BranchesShow u.reading.tokens branches further

theorem recoveredBranches_nil : RecoveredBranches [] := by
  intro t rest word opened finished tag before frames _ hframes h
  exact ⟨t, finished, tag, [], .refl, hframes, (List.append_nil _).symm, h, fun _ _ hx => hx,
    trivial⟩

/-- Character data ends where a branch begins. -/
theorem ends_printBranches (further : List SketchBranch) (hends : Ends rest) :
    Ends (printBranches further ++ rest) := by
  cases further with
  | nil => exact hends
  | cons b further =>
    cases b
    exact .inr rfl

theorem recoveredBranches_cons {keyword : Keyword} {x : Identifier} {children : List Sketch}
    {further : List SketchBranch} (hchildren : Recovered children)
    (hfurther : RecoveredBranches further) :
    RecoveredBranches (.mk keyword x children :: further) := by
  intro t rest word opened finished tag before frames hends hframes h
  have hwhole : t.reading.rest = printBlockTag ':' keyword x ++ (printAll children ++
      (printBranches further ++ rest)) := by
    rw [h]
    simp [printBranches]
  have hends' : Ends (printBranches further ++ rest) := ends_printBranches further hends
  obtain ⟨s, hopen, hsdone, hsframes⟩ := steps_nextBranch hframes hwhole
  obtain ⟨u, nodes, hu, hshow⟩ := hchildren _ _ hends' hopen.rest
  obtain ⟨v, finished', tag', branches, hv, hvframes, hsofar, hrest, hlater, hbranches⟩ :=
    hfurther u rest _ _ _ _ _ _ hends (hu.frames.trans hsframes) hu.rest
  rw [hu.done, hsdone, List.append_nil, List.reverse_reverse] at hsofar
  have htokens := hu.tokens.trans hlater
  refine ⟨v, finished', tag', .mk ⟨keyword.chars, t.reading.next, t.reading.next + 3⟩ nodes ::
    branches, .head hopen.steps (hu.becomes.trans hv), hvframes, ?_, hrest,
    hopen.takes.extends.trans htokens, rfl, hopen.takes.spells.mono htokens,
    NodesShow.mono hlater nodes children hshow, hbranches⟩
  rw [hsofar]
  simp [branchesSoFar]

theorem recovers_control {keyword : Keyword} {x : Identifier} {children : List Sketch}
    {further : List SketchBranch} (hchildren : Recovered children)
    (hfurther : RecoveredBranches further)
    (h : t.reading.rest = (Sketch.control keyword x children further).print ++ rest) :
    ∃ u n, t.Recovers [n] rest u ∧
      n.Shows u.reading.tokens (.control keyword x children further) := by
  have hwhole : t.reading.rest = printBlockTag '#' keyword x ++ (printAll children ++
      (printBranches further ++ '{' :: '/' :: (keyword.chars ++ '}' :: rest))) := by
    rw [h]
    simp [Sketch.print]
  have hends := ends_printBranches further
    (show Ends ('{' :: '/' :: (keyword.chars ++ '}' :: rest)) from .inr rfl)
  obtain ⟨s, hopen, hsdone, hsframes⟩ := steps_openBlock hwhole
  obtain ⟨u, nodes, hu, hshow⟩ := hchildren _ _ hends hopen.rest
  obtain ⟨v, finished', tag', branches, hv, hvframes, hsofar, hvrest, hlater, hbranches⟩ :=
    hfurther u _ _ _ _ _ _ _ (.inr rfl) (hu.frames.trans hsframes) hu.rest
  obtain ⟨w, hclose, hwframes, hwdone⟩ := steps_endBlock hvframes hvrest
  rw [hu.done, hsdone, List.append_nil, List.reverse_reverse] at hsofar
  rw [closeBlock_of_branches hsofar] at hwdone
  have hmore := hlater.trans hclose.takes.extends
  have htokens := hu.tokens.trans hmore
  exact ⟨w, _, ⟨.head hopen.steps ((hu.becomes.trans hv).tail hclose.steps), hwframes, hwdone,
    hclose.rest, hopen.takes.extends.trans htokens⟩, rfl, hopen.takes.spells.mono htokens,
    NodesShow.mono hmore nodes children hshow,
    BranchesShow.mono hclose.takes.extends branches further hbranches, rfl, hclose.takes.spells⟩

/-! ### All trees -/

/-- Where a tree that is no text begins, character data ends. -/
theorem ends_printAll {sketches : List Sketch} (hfirst : beginsWithText sketches = false)
    (hends : Ends rest) : Ends (printAll sketches ++ rest) := by
  cases sketches with
  | nil => exact hends
  | cons p sketches =>
    cases p with
    | text => cases hfirst
    | mustache | control => exact .inr rfl
    | element n children =>
      refine .inr ?_
      simp [printAll, Sketch.print, ElementName.chars, endsText, opensMarkup_cons, n.letter]

mutual

/-- **A tree is read**, whatever stands behind it. -/
theorem recovers_sketch : (p : Sketch) → p.Spaced → (t : OpenTree) → (rest : List Char) →
    (beginsWithText [p] = true → Ends rest) → t.reading.rest = p.print ++ rest →
    ∃ u n, t.Recovers [n] rest u ∧ n.Shows u.reading.tokens p
  | .text _, _, _, _, hends, h => recovers_text (hends rfl) h
  | .mustache x, _, _, _, _, h => recovers_mustache (by rw [h]; simp [Sketch.print])
  | .element _ children, hspaced, _, _, _, h =>
    recovers_element (recovered children hspaced) h
  | .control _ _ children further, hspaced, _, _, _, h =>
    recovers_control (recovered children hspaced.1) (recoveredBranches further hspaced.2) h

theorem recovered : (sketches : List Sketch) → AllSpaced sketches → Recovered sketches
  | [], _, t, rest, _, h => ⟨t, [], ⟨.refl, rfl, rfl, h, fun _ _ hx => hx⟩, trivial⟩
  | p :: sketches, hspaced, t, rest, hends, h => by
    obtain ⟨hp, hnext, hspaced⟩ := hspaced
    obtain ⟨u, n, hu, hn⟩ := recovers_sketch p hp t (printAll sketches ++ rest)
      (fun htext => ends_printAll (hnext htext) hends) (by rw [h]; simp [printAll])
    obtain ⟨v, nodes, hv, hnodes⟩ := recovered sketches hspaced u rest hends hu.rest
    exact ⟨v, n :: nodes, hu.trans hv, Node.Shows.mono hv.tokens n p hn, hnodes⟩

theorem recoveredBranches : (further : List SketchBranch) → BranchesSpaced further →
    RecoveredBranches further
  | [], _ => recoveredBranches_nil
  | .mk _ _ children :: further, hspaced =>
    recoveredBranches_cons (recovered children hspaced.1) (recoveredBranches further hspaced.2)

end

end OpenTree

/-- **Every draft is recovered.** What is printed can be read, and the document has its tree: the
same sorts of nodes, with the same names, keywords, expressions and texts, in the same order and
nested in the same way. -/
theorem read_print (draft : Draft) : ∃ d, Document.read draft.print = .ok d ∧
    d.text = draft.print ∧ NodesShow d.tokens d.nodes draft.nodes := by
  obtain ⟨u, nodes, hu, hshow⟩ := OpenTree.recovered draft.nodes draft.spaced
    (.start draft.print) [] (.inl rfl) (List.append_nil _).symm
  have hgrow : (OpenTree.start draft.print).grow = .ok u := by
    rw [hu.becomes.grow, OpenTree.grow]
    split
    · rfl
    · next hcons =>
      rw [hu.rest] at hcons
      cases hcons
  obtain ⟨d, hd, htext, htokens, hnodes⟩ := read_of_grow hgrow hu.frames
  refine ⟨d, hd, htext, ?_⟩
  rw [htokens, hnodes, hu.done]
  simpa [OpenTree.start] using hshow

/-- A paragraph with a mustache and text. -/
example : (Sketch.element ⟨'p', [], by decide, by simp, by decide +kernel, by decide +kernel⟩
    [.mustache ⟨'x', ['1'], by decide, List.forall_mem_singleton.mpr (by decide)⟩,
      .text ⟨['!', '\x7d'], inline_of_all (by decide) (by decide), by decide, by decide⟩]).print =
    "<p>\x7bx1\x7d!\x7d</p>".toList := by decide

end MarkupIndent.Markup
