import MarkupIndent.Proofs.Origins

/-!
# Braces match

An expression ends at the brace that closes the one before it. Braces are counted where they are
tokens by themselves; those in a string or a template are part of its token and do not count.

* `countSign`, `BracesMatch`: the braces among some tokens, with some of them open at first.
* `Token.Inner`: what a token inside braces is made of.
* `expressionLexeme_brace`: the tokens of an expression that have a brace.
* `readExpression_inner`: what is read of an expression matches.
* `Enclosed`: a stretch of tokens that ends at its closing brace.
* `enclosed_of_read`: **every mustache and every tag of a block is enclosed**.
-/

namespace MarkupIndent.Markup

open Text

/-! ## Counting braces -/

/-- How many of some tokens are a sign by itself. -/
def countSign (sign : Char) (ts : List Token) : Nat :=
  ts.countP fun t => t.kind == .punctuator && t.text == [sign]

/-- When some braces are open at first, never more are closed than are open, and in the end none is
open. -/
structure BracesMatch (depth : Nat) (ts : List Token) : Prop where
  never_more : ∀ beginning, beginning <+: ts →
    countSign '}' beginning ≤ depth + countSign '{' beginning
  all_closed : countSign '}' ts = depth + countSign '{' ts

theorem countSign_cons (sign : Char) (t : Token) (ts : List Token) :
    countSign sign (t :: ts) =
      countSign sign ts + if t.kind = .punctuator ∧ t.text = [sign] then 1 else 0 := by
  simp [countSign, List.countP_cons]

theorem bracesMatch_nil : BracesMatch 0 [] where
  never_more beginning h := by
    rw [List.prefix_nil.mp h]
    exact Nat.le_refl _
  all_closed := rfl

/-- A token opens a brace, closes one that is open, or does neither. -/
theorem braceDepth_add {depth : Nat} {kind : TokenKind} {text : List Char}
    (hclose : kind = .punctuator → text = ['}'] → 0 < depth) :
    Reading.braceDepth depth kind text + (if kind = .punctuator ∧ text = ['}'] then 1 else 0) =
      depth + if kind = .punctuator ∧ text = ['{'] then 1 else 0 := by
  unfold Reading.braceDepth
  by_cases hopens : kind = .punctuator ∧ text = ['{']
  · simp [hopens]
  · by_cases hcloses : kind = .punctuator ∧ text = ['}']
    · have := hclose hcloses.1 hcloses.2
      simp only [hcloses]
      simp
      omega
    · simp [hopens, hcloses]

/-- Braces match with one more token in front. -/
theorem BracesMatch.cons {depth : Nat} {t : Token} {ts : List Token}
    (hclose : t.kind = .punctuator → t.text = ['}'] → 0 < depth)
    (h : BracesMatch (Reading.braceDepth depth t.kind t.text) ts) :
    BracesMatch depth (t :: ts) := by
  have hadd := braceDepth_add hclose
  constructor
  · intro beginning hb
    rcases List.prefix_cons_iff.mp hb with rfl | ⟨us, rfl, hus⟩
    · exact Nat.zero_le _
    · have := h.never_more us hus
      rw [countSign_cons, countSign_cons]
      omega
  · have := h.all_closed
    rw [countSign_cons, countSign_cons]
    omega

/-- Names have no braces to match. -/
theorem BracesMatch.names_append {depth : Nat} {ws ts : List Token} (h : BracesMatch depth ts)
    (hkind : ∀ w ∈ ws, w.kind = .name) : BracesMatch depth (ws ++ ts) := by
  induction ws with
  | nil => exact h
  | cons w ws ih =>
    rw [List.forall_mem_cons] at hkind
    refine BracesMatch.cons (by simp [hkind.1]) ?_
    simpa [Reading.braceDepth, hkind.1] using ih hkind.2

/-! ## Tokens inside braces -/

/-- A token inside braces of a text: punctuation, a word, or a piece of an expression. It has a
brace only if it is that brace, or a string with its two quotes; and where a string begins, the
token is the whole string. -/
structure Token.Inner (text : List Char) (t : Token) : Prop where
  kind : t.kind = .expression ∨ t.kind = .name ∨ t.kind = .punctuator
  ne_nil : t.text ≠ []
  brace : ∀ b, b = '{' ∨ b = '}' → b ∈ t.text → (t.kind = .punctuator ∧ t.text = [b]) ∨
    t.kind = .expression ∧ ∃ quote body, isQuote quote = true ∧ t.text = quote :: body ∧
      stringTail? quote body = some body.length
  string : ∀ quote rest n, isQuote quote = true → text.drop t.start = quote :: rest →
    stringTail? quote rest = some n → t.kind = .expression ∧ t.text = quote :: rest.take n

theorem ne_brace_of {p : Char → Bool} (h1 : p '{' = false) (h2 : p '}' = false) {b c : Char}
    (hb : b = '{' ∨ b = '}') (hc : p c = true) : b ≠ c := by
  rintro rfl
  rcases hb with rfl | rfl
  · rw [h1] at hc
    cases hc
  · rw [h2] at hc
    cases hc

/-- A string of an expression is one token. -/
theorem expressionLexeme_string {quote : Char} {rest : List Char} {n : Nat}
    (hq : isQuote quote = true) (h : stringTail? quote rest = some n) :
    expressionLexeme quote rest = (.expression, n) := by
  simp only [expressionLexeme, hq, if_true, h]

/-- **A token of an expression that has a brace** is the brace by itself or a string. -/
theorem expressionLexeme_brace {b c : Char} {rest : List Char} (hb : b = '{' ∨ b = '}')
    (h : b ∈ c :: rest.take (expressionLexeme c rest).2) :
    (c = b ∧ expressionLexeme c rest = (.punctuator, 0)) ∨
      isQuote c = true ∧ ∃ n, stringTail? c rest = some n ∧
        expressionLexeme c rest = (.expression, n) := by
  have word : ∀ p q : Char → Bool, p '{' = false → p '}' = false → q '{' = false →
      q '}' = false → p c = true → b ∉ c :: rest.take (rest.takeWhile q).length := by
    intro p q hp hp' hq hq' hc hmem
    rw [take_length_takeWhile] at hmem
    rcases List.mem_cons.mp hmem with rfl | hmem
    · exact ne_brace_of hp hp' hb hc rfl
    · exact ne_brace_of hq hq' hb (List.mem_takeWhile_imp hmem) rfl
  by_cases hstring : isQuote c = true ∧ ∃ n, stringTail? c rest = some n
  · obtain ⟨hq, n, hn⟩ := hstring
    exact .inr ⟨hq, n, hn, expressionLexeme_string hq hn⟩
  · left
    have hnone : (if isQuote c = true then stringTail? c rest else none) = none := by
      split
      · next hq =>
        by_contra hne
        exact hstring ⟨hq, Option.ne_none_iff_exists'.mp hne⟩
      · rfl
    unfold expressionLexeme at h ⊢
    rw [hnone] at h ⊢
    simp only at h ⊢
    split at h
    · next hd =>
      exact absurd h (word isDigit _ (by decide) (by decide) (by decide) (by decide) hd)
    · next hd =>
      rw [if_neg hd]
      split at h
      · next hn =>
        exact absurd h (word isNameStart _ (by decide) (by decide) (by decide) (by decide) hn)
      · next hn =>
        rw [if_neg hn]
        split at h
        · next op hop =>
          exfalso
          have hmem := List.mem_of_find?_eq_some hop
          have hpre := List.find?_some hop
          rw [List.isPrefixOf_iff_prefix] at hpre
          obtain ⟨hlen, -⟩ := operators_spec op hmem
          have hfree : ∀ op ∈ operators, '{' ∉ op ∧ '}' ∉ op := by decide
          have htake : c :: rest.take (op.length - 1) = op := by
            rw [List.prefix_iff_eq_take.mp hpre]
            cases op with
            | nil => exact absurd rfl hlen
            | cons d op => simp
          simp only [htake] at h
          rcases hb with rfl | rfl
          · exact (hfree op hmem).1 h
          · exact (hfree op hmem).2 h
        · next hop =>
          simp only [List.take_zero, List.mem_singleton] at h
          subst h
          rcases hb with rfl | rfl <;> exact ⟨rfl, rfl⟩

namespace Reading

variable {text : List Char} {r s : Reading}

/-- The text from a token on. -/
theorem drop_start_token (hr : Tracks text r) (kind : TokenKind) (n : Nat) :
    text.drop (r.token kind n).start = r.rest :=
  hr.rest.symm

theorem inner_lexeme (hr : Tracks text r) {c : Char} {rest : List Char} (hrest : r.rest = c :: rest)
    (hc : isBlank c = false) :
    (r.token (expressionLexeme c rest).1 ((expressionLexeme c rest).2 + 1)).Inner text := by
  have htext : (r.token (expressionLexeme c rest).1 ((expressionLexeme c rest).2 + 1)).text =
      c :: rest.take (expressionLexeme c rest).2 := by
    show r.rest.take _ = _
    rw [hrest, List.take_succ_cons]
  refine ⟨?_, by rw [htext]; simp, fun b hb hmem => ?_, fun quote rest' n hq hdrop hn => ?_⟩
  · rcases (expressionLexeme_spec rest hc).2.2 with h | h
    · exact .inl h
    · exact .inr (.inr h.1)
  · rw [htext] at hmem ⊢
    rcases expressionLexeme_brace hb hmem with ⟨rfl, h⟩ | ⟨hq, n, hn, h⟩
    · left
      rw [h]
      exact ⟨rfl, rfl⟩
    · right
      have hle := (stringTail?_spec hn).1
      rw [stringTail?_eq, ← List.take_append_drop n rest] at hn
      have hwhole := stringEnd?_found hn (by rw [List.length_take]; omega) []
      rw [List.append_nil, ← stringTail?_eq] at hwhole
      rw [h]
      exact ⟨rfl, c, _, hq, rfl, by rw [hwhole, List.length_take, Nat.min_eq_left hle]⟩
  · rw [drop_start_token hr, hrest] at hdrop
    obtain ⟨rfl, rfl⟩ := List.cons.inj hdrop
    rw [htext, expressionLexeme_string hq hn]
    exact ⟨rfl, rfl⟩

theorem inner_keyword (hr : Tracks text r) (hw : r.rest.takeWhile isAsciiLetter ≠ []) :
    (r.token .name (r.rest.takeWhile isAsciiLetter).length).Inner text := by
  have htext : (r.token .name (r.rest.takeWhile isAsciiLetter).length).text =
      r.rest.takeWhile isAsciiLetter := take_length_takeWhile _
  refine ⟨.inr (.inl rfl), by rwa [htext], fun b hb hmem => ?_, fun quote rest n hq hdrop _ => ?_⟩
  · rw [htext] at hmem
    exact absurd rfl (ne_brace_of (p := isAsciiLetter) (by decide) (by decide) hb
      (List.mem_takeWhile_imp hmem))
  · rw [drop_start_token hr] at hdrop
    rw [hdrop, List.takeWhile_cons] at hw
    split at hw
    · next hl =>
      rcases isQuote_cases hq with rfl | rfl | rfl <;> cases hl
    · exact absurd rfl hw

/-- **The tokens of an expression** match up to the brace that closes it. -/
theorem readExpression_inner {opened : Cursor} {depth : Nat} (hr : Tracks text r)
    (h : readExpression opened depth r = .ok s) :
    ∃ ts t, s.tokens = r.tokens ++ (ts ++ [t]).toArray ∧ BracesMatch depth ts ∧
      (∀ u ∈ ts, u.Inner text) ∧ t.kind = .punctuator ∧ t.text = ['}'] := by
  fun_induction readExpression opened depth r with
  | case1 => cases h
  | case2 depth r c rest hrest hd =>
    obtain ⟨rfl, rfl⟩ := hd
    cases h
    refine ⟨[], r.skipBlanks.token .punctuator 1, by simp, bracesMatch_nil, by simp, rfl, ?_⟩
    show r.skipBlanks.rest.take 1 = _
    rw [hrest]
    rfl
  | case3 depth r c rest hrest hd lexeme ih =>
    have hskip := tracks_of_reads (reads_skipBlanks r) hr
    obtain ⟨us, hus, -⟩ := readsMarkup_lexeme hrest
    obtain ⟨ts, t, htokens, hmatch, hinner, ht⟩ := ih (tracks_of_reads hus hskip) h
    have htext : (r.skipBlanks.token lexeme.1 (lexeme.2 + 1)).text = c :: rest.take lexeme.2 := by
      show r.skipBlanks.rest.take _ = _
      rw [hrest, List.take_succ_cons]
    refine ⟨r.skipBlanks.token lexeme.1 (lexeme.2 + 1) :: ts, t, ?_, ?_, ?_, ht⟩
    · rw [htokens, tokens_emit, tokens_skipBlanks]
      simp
    · refine BracesMatch.cons (fun _ hclose => ?_) (htext ▸ hmatch)
      -- A closing brace that is read on from closes one that is open.
      rw [htext] at hclose
      exact Nat.pos_of_ne_zero fun hzero => hd ⟨(List.cons.inj hclose).1, hzero⟩
    · exact List.forall_mem_cons.mpr
        ⟨inner_lexeme hskip hrest (not_isBlank_of_skipBlanks hrest), hinner⟩

end Reading

/-! ## Tags in braces -/

/-- Two tokens of a text follow each other with only blanks between them. -/
structure Token.Abuts (text : List Char) (s t : Token) : Prop where
  le : s.stop ≤ t.start
  blank : ∀ o c, s.stop ≤ o → o < t.start → text[o]? = some c → Text.isBlank c = true

/-- Tokens between one that begins with an opening brace and a closing brace, where all braces
match. -/
structure Braced (text : List Char) (opening : Token) (between : List Token) (closing : Token) :
    Prop where
  opened : opening.kind = .punctuator ∧ ∃ sign, opening.text = '{' :: sign
  matching : BracesMatch 0 between
  inner : ∀ t ∈ between, t.Inner text
  closed : closing.kind = .punctuator ∧ closing.text = ['}']

/-- The tokens strictly between two indices. -/
def inside (tokens : Array Token) (first last : Nat) : List Token :=
  (tokens.extract (first + 1) last).toList

/-- The tokens from one index to another are in braces and follow each other. -/
structure Enclosed (text : List Char) (tokens : Array Token) (first last : Nat) : Prop where
  lt : first < last
  braced : ∃ s t, tokens[first]? = some s ∧ tokens[last]? = some t ∧
    Braced text s (inside tokens first last) t
  abuts : ∀ i, first ≤ i → i < last →
    ∃ s t, tokens[i]? = some s ∧ tokens[i + 1]? = some t ∧ s.Abuts text t

section Text

variable {text : List Char} {tokens : Array Token}

theorem abuts_of_tokenized (h : Tokenized text text.length tokens) {i : Nat} {s t : Token}
    (hs : tokens[i]? = some s) (ht : tokens[i + 1]? = some t) : s.Abuts text t where
  le := h.ordered i (i + 1) s t (Nat.lt_succ_self i) hs ht
  blank o c h1 h2 hc := by
    refine h.gaps o c (List.getElem?_eq_some_iff.mp hc).1 hc fun j u hu hin => ?_
    rcases Nat.lt_trichotomy j i with hlt | rfl | hgt
    · have := h.ordered j i u s hlt hu hs
      have := (h.token i s hs).lt
      omega
    · obtain rfl := Option.some.inj (hs.symm.trans hu)
      omega
    · rcases Nat.eq_or_lt_of_le hgt with rfl | hlt
      · obtain rfl := Option.some.inj (ht.symm.trans hu)
        omega
      · have := h.ordered (i + 1) j t u hlt ht hu
        have := (h.token (i + 1) t ht).lt
        omega

/-- Tokens in braces are enclosed where they stand in a text. -/
theorem Braced.enclosed (h : Tokenized text text.length tokens) {before mid after : List Token}
    {o t : Token} (hb : Braced text o mid t)
    (hsplit : tokens.toList = before ++ o :: (mid ++ t :: after)) :
    Enclosed text tokens before.length (before.length + 1 + mid.length) := by
  have hget : ∀ i, tokens[i]? = (before ++ o :: (mid ++ t :: after))[i]? := fun i => by
    rw [← hsplit, Array.getElem?_toList]
  have hlast : before.length + 1 + mid.length < tokens.toList.length := by
    rw [hsplit]
    simp
    omega
  refine ⟨by omega, ⟨o, t, ?_, ?_, ?_⟩, fun i _ hi => ?_⟩
  · rw [hget]
    simp
  · rw [hget, List.getElem?_append_right (by omega),
      show before.length + 1 + mid.length - before.length = mid.length + 1 by omega]
    simp
  · have hinside : inside tokens before.length (before.length + 1 + mid.length) = mid := by
      rw [inside, Array.toList_extract, List.extract_eq_take_drop, hsplit, List.append_cons,
        List.drop_left' (by simp), Nat.add_sub_cancel_left, List.take_left' rfl]
    rwa [hinside]
  · have hlen : tokens.toList.length = tokens.size := Array.length_toList
    have hs : tokens[i]? = _ := Array.getElem?_eq_getElem (by omega)
    have ht : tokens[i + 1]? = _ := Array.getElem?_eq_getElem (by omega)
    exact ⟨_, _, hs, ht, abuts_of_tokenized h hs ht⟩

end Text

namespace Reading

variable {text : List Char} {r s t u : Reading}

/-- What is read from one reading to another is in braces. -/
def ReadsBraced (text : List Char) (r s : Reading) : Prop :=
  ∃ o mid t, s.tokens.toList = r.tokens.toList ++ o :: (mid ++ [t]) ∧ Braced text o mid t

/-- An opening sign and an expression, with some words between them. -/
theorem readsBraced_of_readExpression {sign : List Char} {opened : Cursor} (ws : List Token)
    (hs : r.startsWith ('{' :: sign) = true) (ht : Tracks text t)
    (htokens : t.tokens.toList = r.tokens.toList ++ r.token .punctuator (sign.length + 1) :: ws)
    (hws : ∀ w ∈ ws, w.Inner text ∧ w.kind = .name) (h : readExpression opened 0 t = .ok u) :
    ReadsBraced text r u := by
  obtain ⟨ts, c, hts, hmatch, hinner, hclose⟩ := readExpression_inner ht h
  refine ⟨r.token .punctuator (sign.length + 1), ws ++ ts, c, ?_,
    ⟨⟨rfl, sign, ?_⟩, hmatch.names_append fun w hw => (hws w hw).2,
      List.forall_mem_append.mpr ⟨fun w hw => (hws w hw).1, hinner⟩, hclose⟩⟩
  · rw [hts, Array.toList_append, htokens]
    simp
  · have hpre : '{' :: sign <+: r.rest := List.isPrefixOf_iff_prefix.mp hs
    exact (List.prefix_iff_eq_take.mp hpre).symm

/-- An opening sign, a keyword and an expression. -/
theorem readsBraced_of_readKeyword {sign : Char} {word : List Char} {opened : Cursor}
    (hr : Tracks text r) (hb : isBlank sign = false) (hs : r.startsWith ['{', sign] = true)
    (hword : readKeyword (r.emit .punctuator 2) = .ok (word, t))
    (h : readExpression opened 0 t = .ok u) : ReadsBraced text r u := by
  obtain ⟨us, hus, -⟩ := readsMarkup_sign hs (by simp) (word_blockSign hb)
  have hopened := tracks_of_reads hus hr
  obtain ⟨vs, hvs, -⟩ := (reads_readKeyword hword).1
  have hskip := tracks_of_reads (reads_skipBlanks _) hopened
  have ht := tracks_of_reads hvs hopened
  unfold readKeyword at hword
  simp only at hword
  split at hword
  · cases hword
  · next hne =>
    cases hword
    refine readsBraced_of_readExpression [_] hs ht ?_
      (List.forall_mem_singleton.mpr ⟨inner_keyword hskip (by simpa using hne), rfl⟩) h
    simp

theorem readsBraced_readMustache {m : Mustache} (hr : Tracks text r)
    (hs : r.startsWith ['{'] = true) (h : readMustache r = .ok (m, s)) : ReadsBraced text r s := by
  unfold readMustache at h
  split at h
  · next hat =>
    obtain ⟨⟨word, t⟩, h1, h⟩ := bind_eq_ok.mp h
    obtain ⟨u, h2, h⟩ := bind_eq_ok.mp h
    cases h
    exact readsBraced_of_readKeyword hr (by decide) hat h1 h2
  · obtain ⟨u, h2, h⟩ := bind_eq_ok.mp h
    cases h
    obtain ⟨us, hus, -⟩ := readsMarkup_sign hs (by simp) (by decide)
    exact readsBraced_of_readExpression [] hs (tracks_of_reads hus hr) (by simp) (by simp) h2

theorem readsBraced_readBlockTag {b : BlockTag} {sign : Char} (hr : Tracks text r)
    (hb : isBlank sign = false) (hs : r.startsWith ['{', sign] = true)
    (h : readBlockTag r = .ok (b, s)) : ReadsBraced text r s := by
  obtain ⟨⟨word, t⟩, h1, h⟩ := bind_eq_ok.mp h
  obtain ⟨u, h2, h⟩ := bind_eq_ok.mp h
  cases h
  exact readsBraced_of_readKeyword hr hb hs h1 h2

/-- What is in braces is enclosed in all that is read. -/
theorem ReadsBraced.enclosed {us : List Token} {tokens : Array Token} {first last : Nat}
    (htokens : Tokenized text text.length tokens) (h : ReadsBraced text r s)
    (hs : Reads s us t) (ht : t.tokens = tokens) (hfirst : first = r.next)
    (hlast : last + 1 = s.next) : Enclosed text tokens first last := by
  obtain ⟨o, mid, c, hmid, hb⟩ := h
  have hnext := congrArg List.length hmid
  simp only [Array.length_toList, List.length_append, List.length_cons, List.length_nil] at hnext
  have hsplit : tokens.toList = r.tokens.toList ++ o :: (mid ++ c :: us) := by
    rw [← ht, hs.tokens, Array.toList_append, hmid]
    simp
  have := hb.enclosed htokens hsplit
  rw [Array.length_toList] at this
  rwa [hfirst, show last = r.tokens.size + 1 + mid.length by simp only [next] at hlast; omega]

end Reading

/-- **A tag ends at its balancing brace.** Every mustache and every tag of a control block begins
with an opening brace and ends with a closing one, between which all braces match; a string or a
template in it is one token, and its braces do not count. -/
theorem enclosed_of_read {text : List Char} {d : Document} (h : Document.read text = .ok d) :
    (∀ m, .node (.mustache m) ∈ d.parts → Enclosed text d.tokens m.first m.last) ∧
      ∀ b, .blockTag b ∈ d.parts → Enclosed text d.tokens b.first b.last := by
  have htokens := tokenized_of_read h
  obtain ⟨s, hs, hparts⟩ := readIn_of_mem_parts h
  constructor
  · intro m hm
    obtain ⟨u, v, ts, us, hu, hbrace, hread, hv⟩ := hparts _ hm
    obtain ⟨-, hfirst, hlast, -⟩ := Reading.reads_readMustache hbrace hread
    exact (Reading.readsBraced_readMustache (tracks_of_reads hu (tracks_start text)) hbrace
      hread).enclosed htokens hv hs hfirst hlast
  · intro b hb
    obtain ⟨u, v, ts, us, sign, hu, hsign, hbrace, hread, hv⟩ := hparts _ hb
    obtain ⟨-, hfirst, hlast, -⟩ := Reading.reads_readBlockTag hsign hbrace hread
    exact (Reading.readsBraced_readBlockTag (tracks_of_reads hu (tracks_start text)) hsign hbrace
      hread).enclosed htokens hv hs hfirst hlast

/-- The mustache that a part is. -/
def Part.mustache? : Part → Option Mustache
  | .node (.mustache m) => some m
  | _ => none

/-- The tag of a block that a part is. -/
def Part.blockTag? : Part → Option BlockTag
  | .blockTag b => some b
  | _ => none

theorem Part.eq_of_mustache? {p : Part} {m : Mustache} (h : p.mustache? = some m) :
    p = .node (.mustache m) := by
  unfold mustache? at h
  split at h <;> cases h
  rfl

theorem Part.eq_of_blockTag? {p : Part} {b : BlockTag} (h : p.blockTag? = some b) :
    p = .blockTag b := by
  unfold blockTag? at h
  split at h <;> cases h
  rfl

/-- A mustache in a start tag, with an object and a string with a brace, and the tag of a block,
with a brace in a template. -/
theorem enclosed_of_read_nested :
    ∃ d, Document.read
        "<p a=\x7bf(\x7bb: '\x7d'\x7d)\x7d>\x7b#if `\x7b`\x7dx\x7b/if\x7d</p>".toList = .ok d ∧
      .node (.mustache ⟨Reading.plainKind, 4, 13⟩) ∈ d.parts ∧
      .blockTag ⟨['i', 'f'], 15, 18⟩ ∈ d.parts ∧
      Enclosed d.text d.tokens 4 13 ∧ Enclosed d.text d.tokens 15 18 := by
  obtain ⟨d, hd⟩ := exists_of_isOk (show (Document.read
    "<p a=\x7bf(\x7bb: '\x7d'\x7d)\x7d>\x7b#if `\x7b`\x7dx\x7b/if\x7d</p>".toList).isOk = true by
      decide +kernel)
  have hparts : (Document.read
      "<p a=\x7bf(\x7bb: '\x7d'\x7d)\x7d>\x7b#if `\x7b`\x7dx\x7b/if\x7d</p>".toList).map (fun d =>
        (d.parts.filterMap Part.mustache?, d.parts.filterMap Part.blockTag?)) =
      .ok ([⟨Reading.plainKind, 4, 13⟩], [⟨['i', 'f'], 15, 18⟩, ⟨['i', 'f'], 20, 22⟩]) := by
    decide +kernel
  rw [hd] at hparts
  obtain ⟨hmustache, hblock⟩ := Prod.mk.inj (Except.ok.inj hparts)
  obtain ⟨p, hm, hp⟩ := List.mem_filterMap.mp (hmustache.symm ▸ List.mem_cons_self)
  obtain ⟨q, hb, hq⟩ := List.mem_filterMap.mp (hblock.symm ▸ List.mem_cons_self)
  rw [Part.eq_of_mustache? hp] at hm
  rw [Part.eq_of_blockTag? hq] at hb
  obtain ⟨hmustaches, hblocks⟩ := enclosed_of_read hd
  have htext := text_of_read hd
  exact ⟨d, hd, hm, hb, htext ▸ hmustaches _ hm, htext ▸ hblocks _ hb⟩

end MarkupIndent.Markup
