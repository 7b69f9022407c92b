import MarkupIndent.Markup.Node
import MarkupIndent.Markup.Reading

/-!
# Reading tags

The pieces of markup between an opening and a closing sign: mustaches, block tags, attributes,
start tags and end tags. Each function reads one piece from its first character on and gives the
piece with the reading after it, or the error that stops it.

* `readExpression`: the tokens of an expression up to the brace that balances its opening one.
* `readMustache`, `readBlockTag`: tags of the template language.
* `readAttribute`, `readStartTag`, `readEndTag`: tags of the markup.
* `language`: what the attributes of a script or style element say about its content.
* `length_readMustache_lt`, `length_readAttribute_lt` and the like: reading a piece makes the rest
  shorter, so the loops over pieces end.
-/

namespace MarkupIndent.Markup.Reading

open Text

/-! ## Expressions -/

/-- The number of open braces after a token of an expression. -/
def braceDepth (depth : Nat) (kind : TokenKind) (text : List Char) : Nat :=
  if kind = .punctuator ∧ text = ['{'] then depth + 1
  else if kind = .punctuator ∧ text = ['}'] then depth - 1
  else depth

/-- Read an expression up to and with the brace that closes it, where `depth` braces opened
inside it are still open. A text that ends before is an error at the place where the tag began. -/
def readExpression (opened : Cursor) (depth : Nat) (r : Reading) : Except ReadError Reading :=
  match h : r.skipBlanks.rest with
  | [] => .error (ReadFault.unterminatedMustache.at opened)
  | c :: rest =>
    if c = '}' ∧ depth = 0 then .ok (r.skipBlanks.emit .punctuator 1)
    else
      let lexeme := expressionLexeme c rest
      readExpression opened (braceDepth depth lexeme.1 (c :: rest.take lexeme.2))
        (r.skipBlanks.emit lexeme.1 (lexeme.2 + 1))
termination_by r.rest.length
decreasing_by
  have h1 := length_skipBlanks_le r
  have h2 : r.skipBlanks.rest.length = rest.length + 1 := by rw [h]; rfl
  simp only [rest_emit, List.length_drop]
  omega

/-- Read the keyword of a tag, after blanks. -/
def readKeyword (r : Reading) : Except ReadError (List Char × Reading) :=
  let r := r.skipBlanks
  let word := r.rest.takeWhile isAsciiLetter
  if word.isEmpty then .error (r.fail .expectedKeyword)
  else .ok (word, r.emit .name word.length)

/-- The kind of a mustache without a keyword. -/
def plainKind : List Char := ['t', 'e', 'x', 't']

/-- Read a mustache from its opening brace. -/
def readMustache (r : Reading) : Except ReadError (Mustache × Reading) :=
  if r.startsWith ['{', '@'] then do
    let (kind, s) ← readKeyword (r.emit .punctuator 2)
    let s ← readExpression r.place 0 s
    .ok (⟨kind, r.next, s.last⟩, s)
  else do
    let s ← readExpression r.place 0 (r.emit .punctuator 1)
    .ok (⟨plainKind, r.next, s.last⟩, s)

/-- Read a tag of a control block from its opening brace and sign. -/
def readBlockTag (r : Reading) : Except ReadError (BlockTag × Reading) := do
  let (word, s) ← readKeyword (r.emit .punctuator 2)
  let s ← readExpression r.place 0 s
  .ok (⟨word, r.next, s.last⟩, s)

theorem length_readExpression_le {opened : Cursor} {depth : Nat} {r s : Reading}
    (h : readExpression opened depth r = .ok s) : s.rest.length ≤ r.rest.length := by
  fun_induction readExpression opened depth r with
  | case1 => simp at h
  | case2 depth r rest hd hr =>
    have h1 := length_skipBlanks_le r
    cases h
    simp only [rest_emit, List.length_drop]
    omega
  | case3 depth r c rest hr hd lexeme ih =>
    have h1 := length_skipBlanks_le r
    have h2 := ih h
    simp only [rest_emit, List.length_drop] at h2
    omega

theorem length_readKeyword_le {r s : Reading} {word : List Char} (h : readKeyword r = .ok (word, s)) :
    s.rest.length ≤ r.rest.length := by
  have h1 := length_skipBlanks_le r
  unfold readKeyword at h
  simp only at h
  split at h
  · cases h
  · cases h
    simp only [rest_emit, List.length_drop]
    omega

theorem length_readMustache_lt {r s : Reading} {m : Mustache} (hr : r.rest ≠ [])
    (h : readMustache r = .ok (m, s)) : s.rest.length < r.rest.length := by
  unfold readMustache at h
  split at h
  · obtain ⟨⟨word, s1⟩, h1, h⟩ := bind_eq_ok.mp h
    obtain ⟨s2, h2, h⟩ := bind_eq_ok.mp h
    cases h
    have := length_readKeyword_le h1
    have := length_readExpression_le h2
    have := length_emit_lt .punctuator 2 (by omega) hr
    omega
  · obtain ⟨s2, h2, h⟩ := bind_eq_ok.mp h
    cases h
    have := length_readExpression_le h2
    have := length_emit_lt .punctuator 1 (by omega) hr
    omega

theorem length_readBlockTag_lt {r s : Reading} {t : BlockTag} (hr : r.rest ≠ [])
    (h : readBlockTag r = .ok (t, s)) : s.rest.length < r.rest.length := by
  unfold readBlockTag at h
  obtain ⟨⟨word, s1⟩, h1, h⟩ := bind_eq_ok.mp h
  obtain ⟨s2, h2, h⟩ := bind_eq_ok.mp h
  cases h
  have := length_readKeyword_le h1
  have := length_readExpression_le h2
  have := length_emit_lt .punctuator 2 (by omega) hr
  omega

/-! ## Attributes -/

/-- Read a quoted value up to and with its closing quote, after `values`. The text between
mustaches becomes one token per line. -/
def readQuoted (quote : Char) (values : List Mustache) (r : Reading) :
    Except ReadError (List Mustache × Reading) :=
  match hr : r.rest with
  | [] => .error (r.fail .unterminatedAttributeValue)
  | c :: rest =>
    if c = quote then .ok (values, r.emit .punctuator 1)
    else if c = '{' then
      match _hm : r.readMustache with
      | .error e => .error e
      | .ok (m, s) => readQuoted quote (values ++ [m]) s
    else
      let n := (rest.takeWhile fun d => d != quote && d != '{').length
      readQuoted quote values (r.run none .literal (n + 1))
termination_by r.rest.length
decreasing_by
  · exact length_readMustache_lt (by simp [hr]) _hm
  · rw [rest_run, hr]
    simp only [List.drop_succ_cons, List.length_drop, List.length_cons]
    omega

/-- Read a value after the equals sign and blanks: quoted, a mustache, or bare. -/
def readValue (r : Reading) : Except ReadError (List Mustache × Reading) :=
  if r.startsWith ['"'] then readQuoted '"' [] (r.emit .punctuator 1)
  else if r.startsWith ['\''] then readQuoted '\'' [] (r.emit .punctuator 1)
  else if r.startsWith ['{'] then do
    let (m, s) ← r.readMustache
    .ok ([m], s)
  else match unquotedLength? r.rest with
    | some n => .ok ([], r.emit .literal n)
    | none => .error (r.fail .expectedAttributeValue)

/-- Read an attribute. Blanks may stand around the equals sign; blanks after a key without a
value are left unread. -/
def readAttribute (r : Reading) : Except ReadError (Attribute × Reading) :=
  if r.startsWith ['{'] then do
    let (m, s) ← r.readMustache
    .ok (⟨m.first, m.last, none, [m]⟩, s)
  else
    let n := attributeNameLength r.rest
    if n = 0 then .error (r.fail .expectedAttributeName)
    else
      let s := r.emit .name n
      if s.skipBlanks.startsWith ['='] then do
        let (values, t) ← (s.skipBlanks.emit .punctuator 1).skipBlanks.readValue
        .ok (⟨r.next, t.last, some r.next, values⟩, t)
      else .ok (⟨r.next, r.next, some r.next, []⟩, s)

theorem length_readQuoted_le {quote : Char} {values ms : List Mustache} {r s : Reading}
    (h : readQuoted quote values r = .ok (ms, s)) : s.rest.length ≤ r.rest.length := by
  fun_induction readQuoted quote values r with
  | case1 => cases h
  | case2 =>
    cases h
    exact length_emit_le ..
  | case3 => cases h
  | case4 values r rest m t hm hr hc ih =>
    have := length_readMustache_lt (by simp [hr]) hm
    have := ih h
    omega
  | case5 values r c rest hr hc hb n ih =>
    have h1 := ih h
    rw [rest_run, List.length_drop] at h1
    omega

theorem length_readValue_le {r s : Reading} {ms : List Mustache}
    (h : readValue r = .ok (ms, s)) : s.rest.length ≤ r.rest.length := by
  unfold readValue at h
  split at h
  · have := length_readQuoted_le h
    have := length_emit_le .punctuator 1 r
    omega
  split at h
  · have := length_readQuoted_le h
    have := length_emit_le .punctuator 1 r
    omega
  split at h
  · rename_i hb
    obtain ⟨⟨m, t⟩, h1, h⟩ := bind_eq_ok.mp h
    cases h
    have : r.rest ≠ [] := by
      intro he
      simp [startsWith, he] at hb
    exact Nat.le_of_lt (length_readMustache_lt this h1)
  · split at h
    · cases h
      exact length_emit_le ..
    · cases h

theorem length_readAttribute_lt {r s : Reading} {a : Attribute} (hr : r.rest ≠ [])
    (h : readAttribute r = .ok (a, s)) : s.rest.length < r.rest.length := by
  unfold readAttribute at h
  split at h
  · obtain ⟨⟨m, t⟩, h1, h⟩ := bind_eq_ok.mp h
    cases h
    exact length_readMustache_lt hr h1
  · simp only at h
    split at h
    · cases h
    · rename_i hn
      have h1 := length_emit_lt .name (attributeNameLength r.rest) (by omega) hr
      split at h
      · obtain ⟨⟨ms, t⟩, h2, h⟩ := bind_eq_ok.mp h
        cases h
        have := length_readValue_le h2
        simp only at this ⊢
        have := length_skipBlanks_le (r.emit .name (attributeNameLength r.rest))
        have := length_emit_le .punctuator 1
          (r.emit .name (attributeNameLength r.rest)).skipBlanks
        have := length_skipBlanks_le
          ((r.emit .name (attributeNameLength r.rest)).skipBlanks.emit .punctuator 1)
        omega
      · cases h
        exact h1

/-! ## Tags of elements -/

/-- Read the attributes of a start tag, after `attributes`, and its closing sign; the answer says
whether that sign closes the element as well. -/
def readAttributes (before : List Attribute) (r : Reading) :
    Except ReadError (List Attribute × Bool × Reading) :=
  match _hr : r.skipBlanks.rest with
  | [] => .error (r.skipBlanks.fail .unterminatedStartTag)
  | _ :: _ =>
    if r.skipBlanks.startsWith ['/', '>'] then
      .ok (before, true, r.skipBlanks.emit .punctuator 2)
    else if r.skipBlanks.startsWith ['>'] then
      .ok (before, false, r.skipBlanks.emit .punctuator 1)
    else match _ha : r.skipBlanks.readAttribute with
      | .error e => .error e
      | .ok (a, s) => readAttributes (before ++ [a]) s
termination_by r.rest.length
decreasing_by
  have := length_readAttribute_lt (by simp [_hr]) _ha
  have := length_skipBlanks_le r
  omega

/-- Read a start tag from its opening sign, which a tag name follows. The name is given too. -/
def readStartTag (r : Reading) : Except ReadError (StartTag × List Char × Reading) := do
  let s := r.emit .punctuator 1
  let name := s.rest.take (tagNameLength s.rest)
  let (as, selfClosing, t) ← readAttributes [] (s.emit .name name.length)
  .ok (⟨r.next, t.last, r.next + 1, as, selfClosing⟩, name, t)

/-- Read the end tag of an element of a name from its opening sign. The name is compared letter
by letter. -/
def readEndTag (name : List Char) (r : Reading) : Except ReadError (EndTag × Reading) :=
  let s := (r.emit .punctuator 2).skipBlanks
  let n := tagNameLength s.rest
  if s.rest.take n ≠ name then .error (s.fail (.expectedEndTag name))
  else
    let t := (s.emit .name n).skipBlanks
    if t.startsWith ['>'] then
      let u := t.emit .punctuator 1
      .ok (⟨r.next, u.last⟩, u)
    else .error (t.fail .expectedTagEnd)

theorem length_readAttributes_le {before as : List Attribute} {b : Bool} {r s : Reading}
    (h : readAttributes before r = .ok (as, b, s)) : s.rest.length ≤ r.rest.length := by
  have key := length_skipBlanks_le
  fun_induction readAttributes before r with
  | case1 => cases h
  | case2 before r c rest hr h1 =>
    cases h
    exact Nat.le_trans (length_emit_le ..) (key r)
  | case3 before r c rest hr h1 h2 =>
    cases h
    exact Nat.le_trans (length_emit_le ..) (key r)
  | case4 => cases h
  | case5 before r c rest hr h1 h2 a t ha ih =>
    have := length_readAttribute_lt (by simp [hr]) ha
    have := ih h
    have := key r
    omega

theorem length_readStartTag_lt {r s : Reading} {t : StartTag} {name : List Char} (hr : r.rest ≠ [])
    (h : readStartTag r = .ok (t, name, s)) : s.rest.length < r.rest.length := by
  unfold readStartTag at h
  obtain ⟨⟨as, b, u⟩, h1, h⟩ := bind_eq_ok.mp h
  cases h
  have := length_readAttributes_le h1
  have := length_emit_lt .punctuator 1 (by omega) hr
  simp only [rest_emit, List.length_drop] at *
  omega

theorem length_readEndTag_lt {name : List Char} {r s : Reading} {t : EndTag} (hr : r.rest ≠ [])
    (h : readEndTag name r = .ok (t, s)) : s.rest.length < r.rest.length := by
  have h1 := length_emit_lt .punctuator 2 (by omega) hr
  have h2 := length_skipBlanks_le (r.emit .punctuator 2)
  unfold readEndTag at h
  simp only at h
  split at h
  · cases h
  · split at h
    · cases h
      refine Nat.lt_of_le_of_lt ?_ h1
      refine Nat.le_trans (length_emit_le ..) ?_
      refine Nat.le_trans (length_skipBlanks_le _) ?_
      exact Nat.le_trans (length_emit_le ..) h2
    · cases h

/-! ## The language of a raw block -/

/-- The part of a text after its last slash. -/
def afterSlash (text : List Char) : List Char :=
  (text.reverse.takeWhile (· != '/')).reverse

/-- The language that an attribute names: the first literal of its value, if the key is `lang` or
`type`. A media type stands for what follows its slash. -/
def attributeLanguage? (tokens : Array Token) (a : Attribute) : Option (List Char) := do
  let key ← a.key
  let name := lower (← tokens[key]?).text
  guard (name = ['l', 'a', 'n', 'g'] ∨ name = ['t', 'y', 'p', 'e'])
  let value ← (tokens.extract (key + 1) (a.last + 1)).find? (·.kind == .literal)
  some (lower (afterSlash value.text))

/-- The language of a raw block: what its first attribute that names one says. -/
def language (kind : RawKind) (tokens : Array Token) (as : List Attribute) : List Char :=
  (as.findSome? (attributeLanguage? tokens)).getD kind.language

end MarkupIndent.Markup.Reading
