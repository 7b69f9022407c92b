import MarkupIndent.Proofs.Replay

/-!
# A content in the place of another

A run of character data is cut at blanks, so the content of a line is a token whatever it is, as
long as it begins and ends with characters that are not blank. If one content is put in the place of
another, the run is as far as it was, its other tokens are the same, and after it the two texts are
read abreast.

* `stretches_before`, `stretches_content`: the stretches before a content do not depend on it.
* `OpenTree.Run`: a run of character data, cut at one content of it; `Run.replace`: it is a run with
  another content too.
* `exists_run`: the run of a token.
* `Altered`: tokens of two texts that differ in one content.
* `read_replaced`: **a text with another content can be read**, with the same tree over such tokens.
-/

namespace MarkupIndent.Markup

open Margin Text

/-! ## The content of a line -/

/-- The content of a line does not depend on what stands behind the line end. -/
theorem stops_contentTail : Stops '\n' contentTail := by
  intro a x y
  induction a with
  | nil => rfl
  | cons c a ih => simp only [List.cons_append, contentTail, ih]

theorem contentTail_of_blank {text : List Char}
    (h : ∀ c ∈ text.takeWhile (· != '\n'), isBlank c = true) : contentTail text = 0 := by
  induction text with
  | nil => rfl
  | cons c text ih =>
    by_cases hc : c = '\n'
    · rw [contentTail, if_pos (by simp [hc])]
    · rw [List.takeWhile_cons_of_pos (by simpa using hc)] at h
      rw [contentTail, if_neg (by simpa using hc), ih fun d hd => h d (List.mem_cons_of_mem c hd)]
      simp [h c List.mem_cons_self]

/-- A content and what follows it on its line, which is blank. -/
theorem contentTail_append {text after : List Char} (hn : '\n' ∉ text)
    (hlast : ∀ c, text.getLast? = some c → isBlank c = false) (hafter : contentTail after = 0) :
    contentTail (text ++ after) = text.length := by
  induction text with
  | nil => exact hafter
  | cons c text ih =>
    rw [List.mem_cons, not_or] at hn
    have hc : ¬ (c == '\n') = true := by simpa using Ne.symm hn.1
    rw [List.cons_append, contentTail, if_neg hc]
    cases text with
    | nil =>
      rw [List.nil_append, hafter]
      simp [hlast c rfl]
    | cons d text =>
      rw [ih hn.2 fun e he => hlast e (by rwa [List.getLast?_cons_cons])]
      rfl

/-! ## Stretches before and after a content -/

theorem stretches_content {text after : List Char} (h : Inline text)
    (hafter : contentTail after = 0) :
    stretches (text ++ after) = .content text.length :: stretches after := by
  obtain ⟨⟨⟨c, hc, hb⟩, d, hd, hdb⟩, hn⟩ := h
  cases text with
  | nil => cases hc
  | cons e text =>
    obtain rfl : e = c := Option.some.inj hc
    rw [List.mem_cons, not_or] at hn
    have htail : contentTail (text ++ after) = text.length := by
      refine contentTail_append hn.2 (fun f hf => ?_) hafter
      cases text with
      | nil => cases hf
      | cons g text =>
        rw [List.getLast?_cons_cons] at hd
        rw [hd] at hf
        rwa [← Option.some.inj hf]
    rw [List.cons_append, stretches, if_neg (by simp [hb]), htail]
    simp only [List.drop_left', List.length_cons]

/-- The first stretch of a text. -/
theorem stretches_cons {c : Char} {text : List Char} (hc : isBlank c = false) :
    stretches (c :: text) = .content (contentTail text + 1) ::
      stretches (text.drop (contentTail text)) := by
  rw [stretches, if_neg (by simp [hc])]

/-- Up to the next content there is a line end. -/
theorem newline_mem_of_contentTail {text g z : List Char} {c : Char} (hc : isBlank c = false)
    (h : text.drop (contentTail text) = g ++ c :: z) : '\n' ∈ g := by
  by_contra hno
  have hmem : c ∈ (g ++ c :: z).takeWhile (· != '\n') := by
    rw [List.takeWhile_append_of_pos fun d hd => by simpa using fun h : d = '\n' => hno (h ▸ hd),
      List.takeWhile_cons_of_pos (by simpa using newline_ne_of_not_isBlank hc)]
    simp
  have hblank := isBlank_after_content text c (h ▸ hmem)
  rw [hc] at hblank
  cases hblank

/-- What is left of a text behind its blanks, up to a place that no blank follows. -/
theorem head?_dropWhile_append (text : List Char) (m : Nat) {y : List Char}
    (hy : ∀ c, y.head? = some c → isBlank c = false) :
    ∀ c, ((text.dropWhile isBlank).take m ++ y).head? = some c → isBlank c = false := by
  intro c hc
  have hnot := List.head?_dropWhile_not isBlank text
  cases hrest : (text.dropWhile isBlank).take m with
  | nil => exact hy c (by simpa [hrest] using hc)
  | cons d g =>
    rw [hrest] at hc
    obtain rfl : d = c := Option.some.inj hc
    have hfirst : (text.dropWhile isBlank).head? = some d := by
      have := congrArg List.head? (List.take_append_drop m (text.dropWhile isBlank))
      rw [hrest] at this
      exact this.symm
    rw [hfirst] at hnot
    simpa using hnot

/-- A text that ends with a blank, if anything follows what begins it. -/
theorem ends_blank_append {x z : List Char} (hx : z = [] → ∃ u c, x = u ++ [c] ∧ isBlank c = true)
    (hz : z = [] ∨ ∃ u c, z = u ++ [c] ∧ isBlank c = true) :
    ∃ u c, x ++ z = u ++ [c] ∧ isBlank c = true := by
  rcases hz with rfl | ⟨u, c, rfl, hc⟩
  · simpa using hx rfl
  · exact ⟨x ++ u, c, by rw [List.append_assoc], hc⟩

/-- **The stretches before a content do not depend on it**, nor on what follows. The last of them is
blank. -/
theorem stretches_before {text : List Char} {a b : List Stretch} {s : Stretch}
    (h : stretches text = a ++ s :: b)
    (hhead : ∀ c, (text.drop (totalLength a)).head? = some c → isBlank c = false) :
    stretches (text.drop (totalLength a)) = s :: b ∧
      (text.take (totalLength a) = [] ∨
        ∃ x c, text.take (totalLength a) = x ++ [c] ∧ isBlank c = true) ∧
      ∀ y : List Char, (∀ c, y.head? = some c → isBlank c = false) →
        stretches (text.take (totalLength a) ++ y) = a ++ stretches y := by
  induction text using stretches.induct generalizing a with
  | case1 => simp [stretches] at h
  | case2 c rest hb n =>
    rename_i ih
    cases a with
    | nil => exact ⟨h, .inl rfl, fun y _ => rfl⟩
    | cons p a =>
      rw [stretches, if_pos hb] at h
      obtain ⟨rfl, hrest⟩ := List.cons.inj h
      have htotal : totalLength (.blank (n + 1) :: a) = n + totalLength a + 1 := by
        simp only [totalLength, Stretch.length]
        omega
      have hwhile : rest.take n = rest.takeWhile isBlank := take_length_takeWhile rest
      have hblank : ∀ d ∈ c :: rest.take n, isBlank d = true := by
        intro d hd
        rw [hwhile] at hd
        rcases List.mem_cons.mp hd with rfl | hd
        · exact hb
        · exact List.mem_takeWhile_imp hd
      rw [htotal, List.drop_succ_cons, ← List.drop_drop] at hhead ⊢
      obtain ⟨h1, h2, h3⟩ := ih hrest hhead
      rw [List.take_succ_cons, List.take_add, ← List.cons_append]
      refine ⟨h1, .inr (ends_blank_append (fun _ => ?_) h2), fun y hy => ?_⟩
      · obtain ⟨x, d, hx⟩ := (List.eq_nil_or_concat (c :: rest.take n)).resolve_left (by simp)
        rw [List.concat_eq_append] at hx
        exact ⟨x, d, hx, hblank d (by rw [hx]; simp)⟩
      · have hnext := head?_dropWhile_append rest (totalLength a) hy
        rw [← drop_length_takeWhile] at hnext
        have hfirst := stretches_margin (by simp) hblank hnext
        rw [h3 y hy, List.length_cons, List.length_take,
          Nat.min_eq_left (List.takeWhile_prefix isBlank).length_le] at hfirst
        rw [List.append_assoc, hfirst]
        rfl
  | case3 c rest hb n =>
    rename_i ih
    cases a with
    | nil => exact ⟨h, .inl rfl, fun y _ => rfl⟩
    | cons p a =>
      have hb : isBlank c = false := by simpa using hb
      rw [stretches_cons hb] at h
      obtain ⟨rfl, hnext⟩ := List.cons.inj h
      have htotal : totalLength (.content (n + 1) :: a) = n + totalLength a + 1 := by
        simp only [totalLength, Stretch.length]
        omega
      rw [htotal, List.drop_succ_cons, ← List.drop_drop] at hhead ⊢
      obtain ⟨h1, h2, h3⟩ := ih hnext hhead
      rw [List.take_succ_cons, List.take_add, ← List.cons_append]
      generalize hg : (rest.drop n).take (totalLength a) = g at h2 h3 ⊢
      generalize hz : (rest.drop n).drop (totalLength a) = z at h1 hhead
      have hafter : rest.drop n = g ++ z := by rw [← hg, ← hz, List.take_append_drop]
      have hrest : rest = rest.take n ++ (g ++ z) := by rw [← hafter, List.take_append_drop]
      -- What follows a content on its line is blank, so the line ends before the next one.
      have hline : '\n' ∈ g := by
        cases z with
        | nil => simp [stretches] at h1
        | cons d z => exact newline_mem_of_contentTail (hhead d rfl) hafter
      obtain ⟨x, w, rfl⟩ := List.append_of_mem hline
      refine ⟨h1, .inr (ends_blank_append (fun hnil => by simp at hnil) h2), fun y hy => ?_⟩
      have hsame : contentTail (rest.take n ++ (x ++ '\n' :: w) ++ y) = n := by
        have := stops_contentTail (rest.take n ++ x) (w ++ y) (w ++ z)
        simp only [List.append_assoc, List.cons_append] at this hrest ⊢
        rw [this, ← hrest]
      have hdrop : (rest.take n ++ (x ++ '\n' :: w) ++ y).drop n = x ++ '\n' :: w ++ y := by
        rw [List.append_assoc, List.drop_left']
        rw [List.length_take, Nat.min_eq_left (contentTail_le rest)]
      rw [List.cons_append, List.cons_append, stretches_cons hb, hsame, hdrop, h3 y hy]
      rfl

theorem stretches_nil : stretches [] = [] := by rw [stretches]

theorem totalLength_append (a b : List Stretch) :
    totalLength (a ++ b) = totalLength a + totalLength b := by
  induction a with
  | nil => exact (Nat.zero_add _).symm
  | cons s a ih => rw [List.cons_append, totalLength, totalLength, ih, Nat.add_assoc]

/-! ## Runs of character data -/

namespace Reading

/-- The next stretches of character data. -/
def emitEach (parts : List Stretch) (r : Reading) : Reading :=
  parts.foldl (fun r s => r.emit .htmlText s.length) r

theorem readStretches_text (parts : List Stretch) (r : Reading) :
    readStretches (some .htmlText) .htmlText parts r = r.emitEach parts := by
  induction parts generalizing r with
  | nil => rfl
  | cons s parts ih => cases s <;> exact ih _

theorem emitEach_append (a b : List Stretch) (r : Reading) :
    r.emitEach (a ++ b) = (r.emitEach a).emitEach b := List.foldl_append

theorem getElem?_emitEach {parts : List Stretch} {r : Reading} {i : Nat} (hi : i < r.next) :
    (r.emitEach parts).tokens[i]? = r.tokens[i]? := by
  induction parts generalizing r with
  | nil => rfl
  | cons s parts ih =>
    have hnext : i < (r.emit .htmlText s.length).next := by
      rw [next_emit]
      omega
    refine (ih hnext).trans ?_
    rw [tokens_emit, Array.getElem?_push_lt hi, ← Array.getElem?_eq_getElem hi]

/-- **A token of character data is a stretch of it.** -/
theorem exists_stretch {parts : List Stretch} {r : Reading} {i : Nat} {t : Token}
    (ht : (r.emitEach parts).tokens[i]? = some t) (hi : r.next ≤ i) :
    ∃ a s b, parts = a ++ s :: b ∧ (r.emitEach a).next = i ∧
      t = (r.emitEach a).token .htmlText s.length := by
  induction parts generalizing r with
  | nil =>
    have := (Array.getElem?_eq_some_iff.mp ht).1
    exact absurd this (Nat.not_lt.mpr hi)
  | cons s parts ih =>
    by_cases heq : r.next = i
    · refine ⟨[], s, parts, rfl, heq, ?_⟩
      have hfirst : ((r.emit .htmlText s.length).emitEach parts).tokens[i]? =
          (r.emit .htmlText s.length).tokens[i]? :=
        getElem?_emitEach (by rw [next_emit]; omega)
      rw [show (r.emit .htmlText s.length).emitEach parts = r.emitEach (s :: parts) from rfl, ht,
        tokens_emit, ← heq, next, Array.getElem?_push_size] at hfirst
      exact Option.some.inj hfirst
    · obtain ⟨a, s', b, rfl, h1, h2⟩ := ih (r := r.emit .htmlText s.length) ht (by
        rw [next_emit]
        omega)
      exact ⟨s :: a, s', b, rfl, h1, h2⟩

end Reading

/-- A sign that no quote and no backslash is does not end a string. -/
theorem stringEnd?_append {quote c : Char} (hc : c ≠ '\\') (hq : c ≠ quote) {escaped : Bool}
    {text after : List Char} (h : stringEnd? quote escaped text = none)
    (hafter : stringEnd? quote false after = none) :
    stringEnd? quote escaped (text ++ c :: after) = none := by
  induction text generalizing escaped with
  | nil =>
    cases escaped with
    | true => rw [List.nil_append, stringEnd?, hafter, Option.map_none]
    | false => rw [List.nil_append, stringEnd?, if_neg hc, if_neg hq, hafter, Option.map_none]
  | cons d text ih =>
    rw [List.cons_append]
    rcases stringEnd?_char quote escaped d with hend | ⟨e, hrest⟩
    · rw [hend] at h
      cases h
    · rw [hrest, Option.map_eq_none_iff] at h ⊢
      exact ih h

theorem isBlank_of_contentTail {c : Char} {text : List Char} (h : contentTail (c :: text) = 0) :
    isBlank c = true := by
  by_contra hc
  have hne : c ≠ '\n' := newline_ne_of_not_isBlank (by simpa using hc)
  rw [contentTail, if_neg (by simpa using hne)] at h
  cases htail : contentTail text with
  | zero => simp [htail, hc] at h
  | succ n => simp [htail] at h

theorem isBlank_of_isQuote {c : Char} (h : isQuote c = true) : isBlank c = false := by
  rcases isQuote_cases h with rfl | rfl | rfl <;> rfl

namespace OpenTree

/-- A growing tree before a run of character data that has a content of a line in it: what is before
the content, the content, and what is after it up to the next markup. -/
structure Run (t : OpenTree) (before content after rest : List Char) : Prop where
  rest_eq : t.reading.rest = before ++ (content ++ after) ++ rest
  prose : Prose (before ++ (content ++ after)) rest
  ends : Ends rest
  inline : Inline content
  blank_before : before = [] ∨ ∃ x c, before = x ++ [c] ∧ isBlank c = true
  blank_after : contentTail after = 0
  cut : ∀ y : List Char, (∀ c, y.head? = some c → isBlank c = false) →
    stretches (before ++ y) = stretches before ++ stretches y

section Run

variable {t : OpenTree} {x content y rest : List Char} (h : t.Run x content y rest)
include h

theorem Run.ne_nil : x ++ (content ++ y) ≠ [] := by
  simp [h.inline.1.ne_nil]

theorem Run.endsText_eq : endsText t.reading.rest = false := by
  have hprose := h.prose
  have hne := h.ne_nil
  rw [h.rest_eq]
  generalize x ++ (content ++ y) = text at hprose hne
  cases text with
  | nil => exact absurd rfl hne
  | cons c text => exact hprose.1

/-- The reading after the run. -/
theorem Run.reading : t.text.reading =
    Reading.readStretches (some .htmlText) .htmlText (stretches y)
      ((t.reading.run (some .htmlText) .htmlText x.length).emit .htmlText content.length) := by
  have hhead : ∀ c, (content ++ y).head? = some c → isBlank c = false := by
    obtain ⟨⟨⟨d, hd, hb⟩, -⟩, -⟩ := h.inline
    intro c hc
    rw [List.head?_append, hd] at hc
    obtain rfl : d = c := by simpa using hc
    exact hb
  have htake : t.reading.rest.take x.length = x := by
    rw [h.rest_eq, List.append_assoc, List.take_left' rfl]
  rw [reading_text h.rest_eq h.ne_nil h.prose h.ends, Reading.run, Reading.run, h.rest_eq,
    List.take_left' rfl, ← h.rest_eq, htake, h.cut _ hhead,
    stretches_content h.inline h.blank_after, Reading.readStretches_text,
    Reading.readStretches_text, Reading.readStretches_text, Reading.emitEach_append]
  rfl

/-- **A run with another content.** -/
theorem Run.replace {content' : List Char} (hinline : Inline content') (hlt : '<' ∉ content')
    (hbrace : '{' ∉ content') :
    (t.onto (x ++ (content' ++ y) ++ rest)).Run x content' y rest := by
  refine ⟨rfl, ?_, h.ends, hinline, h.blank_before, h.blank_after, h.cut⟩
  obtain ⟨hx, hprose⟩ := prose_append.mp h.prose
  refine prose_append.mpr ⟨?_, prose_append.mpr ⟨prose_of_not_mem hlt hbrace _,
    (prose_append.mp hprose).2⟩⟩
  rcases h.blank_before with rfl | ⟨x, c, rfl, hc⟩
  · trivial
  · have hstops : Stops c endsText := by
      refine stops_endsText ?_ ?_ ?_ <;>
        · rintro rfl
          cases hc
    refine prose_append.mpr ⟨prose_onto (a := []) hstops (prose_append.mp hx).1 _, ?_, trivial⟩
    exact steady_endsText.blank c _ hc

/-- The sign after the content, if it ends there, is neither an escape nor a quote. -/
theorem Run.sign_after {c : Char} {z : List Char} (hafter : y ++ rest = c :: z) :
    c ≠ '\\' ∧ isQuote c = false := by
  cases y with
  | cons d y =>
    obtain rfl : d = c := (List.cons.inj hafter).1
    have hd := isBlank_of_contentTail h.blank_after
    refine ⟨?_, Bool.eq_false_iff.mpr fun hquote => ?_⟩
    · rintro rfl
      cases hd
    · rw [isBlank_of_isQuote hquote] at hd
      cases hd
  | nil =>
    rw [List.nil_append] at hafter
    have hends := h.ends.resolve_left (by simp [hafter])
    have hc : c = '{' ∨ c = '<' := by
      rw [hafter, endsText, Bool.or_eq_true, Bool.and_eq_true, beq_iff_eq, beq_iff_eq] at hends
      exact hends.imp id And.left
    rcases hc with rfl | rfl <;> decide

/-- The blank before the content takes an escape with it, so that the content begins anew. -/
theorem Run.stringEnd?_before {quote : Char} {a b : List Char}
    (hnone : stringEnd? quote false (x ++ a) = none)
    (hanew : stringEnd? quote false a = none → stringEnd? quote false b = none) :
    stringEnd? quote false (x ++ b) = none := by
  rcases h.blank_before with rfl | ⟨x, c, rfl, hc⟩
  · exact hanew hnone
  · have hslash : c ≠ '\\' := by
      rintro rfl
      cases hc
    rw [List.append_assoc, List.singleton_append] at hnone ⊢
    obtain ⟨h1, h2⟩ := stringEnd?_none hslash hnone
    exact h2 b (hanew h1)

/-- No quote finds its end from the run on, if it finds none with another content there and none in
the content. -/
theorem Run.quiet {content' : List Char}
    (hquotes : ∀ quote, Lone t.reading.tokens quote → stringTail? quote content' = none) :
    Quiet t.reading.tokens t.reading.rest (x ++ (content' ++ y) ++ rest) := by
  intro quote hlone hnone
  have hcontent := hquotes quote hlone
  rw [h.rest_eq] at hnone
  rw [stringTail?_eq] at hcontent hnone ⊢
  rw [List.append_assoc, List.append_assoc] at hnone ⊢
  refine h.stringEnd?_before hnone fun hold => ?_
  cases hafter : y ++ rest with
  | nil =>
    rw [List.append_nil]
    exact hcontent
  | cons c z =>
    obtain ⟨hslash, hno⟩ := h.sign_after hafter
    have hquote : c ≠ quote := by
      rintro rfl
      rw [hlone.1] at hno
      cases hno
    rw [hafter] at hold
    exact stringEnd?_append hslash hquote hcontent (stringEnd?_none hslash hold).1

end Run

/-- **The run of a token**: a token of character data that is not blank is a content of the run that
is read with it. -/
theorem exists_run {v u : OpenTree} (hstep : v.Steps u) (hfits : v.Fits) {i : Nat} {t : Token}
    (ht : u.reading.tokens[i]? = some t) (hi : v.reading.next ≤ i) (hkind : t.kind = .htmlText)
    (hinline : Inline t.text) : ∃ x y rest, v.Run x t.text y rest ∧ u = v.text ∧
      t = (v.reading.run (some .htmlText) .htmlText x.length).token .htmlText t.text.length := by
  have hends : endsText v.reading.rest = false := by
    by_contra hmarkup
    rw [Bool.not_eq_false] at hmarkup
    have hlt : i < u.reading.next := (Array.getElem?_eq_some_iff.mp ht).1
    obtain ⟨t', ht', hne⟩ := (readsMarkup_step hmarkup hfits hstep.2).marked i hi hlt
    rw [ht] at ht'
    obtain rfl := Option.some.inj ht'
    exact hne hkind
  obtain rfl : u = v.text := (Except.ok.inj ((step_text hends).symm.trans hstep.2)).symm
  obtain ⟨text, rest, hrest, hlen, hprose, hafter⟩ := prose_textTail v.reading.rest
  have hne : text ≠ [] := by
    rintro rfl
    rw [← textTail_tail hstep.1 hends] at hlen
    cases hlen
  have hread := reading_text hrest hne hprose hafter
  rw [Reading.run, hrest, List.take_left' rfl, Reading.readStretches_text] at hread
  rw [hread] at ht
  obtain ⟨a, s, b, hsplit, -, htoken⟩ := Reading.exists_stretch ht hi
  have htotal := Reading.totalLength_stretches text
  rw [hsplit, totalLength_append, totalLength] at htotal
  have hrest' : (v.reading.emitEach a).rest = text.drop (totalLength a) ++ rest := by
    have hle : totalLength a ≤ text.length := by omega
    rw [← Reading.readStretches_text, Reading.rest_readStretches, hrest,
      List.drop_append_of_le_length hle]
  have htext : t.text = (text.drop (totalLength a)).take s.length := by
    rw [htoken]
    show (v.reading.emitEach a).rest.take s.length = _
    rw [hrest', List.take_append_of_le_length (by rw [List.length_drop]; omega)]
  obtain ⟨⟨c, hc, hb⟩, -⟩ := hinline.1
  obtain ⟨tail, htail⟩ : ∃ tail, text.drop (totalLength a) = c :: tail := by
    rw [htext, List.head?_take] at hc
    split at hc
    · cases hc
    · exact List.head?_eq_some_iff.mp hc
  have hhead : ∀ d, (text.drop (totalLength a)).head? = some d → isBlank d = false := by
    intro d hd
    rw [htail] at hd
    rwa [← Option.some.inj hd]
  obtain ⟨hfirst, hbefore, hcut⟩ := stretches_before hsplit hhead
  rw [htail, stretches_cons hb] at hfirst
  obtain ⟨hs, -⟩ := List.cons.inj hfirst
  have hsame : stretches (text.take (totalLength a)) = a := by
    simpa [stretches_nil] using hcut [] (by simp)
  have hlength : (text.take (totalLength a)).length = totalLength a := by
    rw [List.length_take]
    omega
  have hsplit' : text.take (totalLength a) ++ (t.text ++ tail.drop (contentTail tail)) = text := by
    rw [htext, htail, ← hs]
    simp only [Stretch.length]
    rw [List.take_succ_cons, List.cons_append, List.take_append_drop, ← htail,
      List.take_append_drop]
  refine ⟨text.take (totalLength a), tail.drop (contentTail tail), rest, ⟨?_, ?_, hafter, hinline,
    hbefore, contentTail_of_blank (isBlank_after_content tail), fun y hy => ?_⟩, rfl, ?_⟩
  · rw [hsplit', hrest]
  · rwa [hsplit']
  · rw [hcut y hy, hsame]
  · have hlen : t.text.length = s.length := by
      rw [htext, List.length_take, List.length_drop]
      omega
    rw [hlen, htoken, Reading.run, hlength, hrest, List.take_append_of_le_length (by omega), hsame,
      Reading.readStretches_text]

end OpenTree

/-! ## Texts that differ in one content -/

theorem eq_of_mended_nil {o : Int} {a b : List Char} (h : Mended [] o a b) : a = b := by
  induction h with
  | nil => rfl
  | char _ _ ih | line _ _ ih => rw [ih]
  | mend he => cases he

/-- Beginnings of two texts that differ in a content behind `u`: what is before the content, or both
with what follows it. -/
inductive Swapped (u old new : List Char) : List Char → List Char → Prop
  | before (x : List Char) : Swapped u old new x x
  | behind (x : List Char) : Swapped u old new (u ++ (old ++ x)) (u ++ (new ++ x))

/-- Tokens of two texts that differ in a content behind `u`. They are the same but for their places,
and the contents are tokens of each other. -/
structure Altered (u old new source mended : List Char) (t t' : Token) : Prop where
  kind : t.kind = t'.kind
  start : Swapped u old new (source.take t.start) (mended.take t'.start)
  text : t.text = t'.text ∨ t.kind = .htmlText ∧ t.text = old ∧ t'.text = new

/-- A text, and what it is with another content. -/
def Pairing.swapped (u old new source mended : List Char) : Pairing [] source mended where
  before := Swapped u old new
  token := Altered u old new source mended
  append h hab := by
    rw [← eq_of_mended_nil hab]
    cases h with
    | before x => exact .before _
    | behind x =>
      rw [List.append_assoc, List.append_assoc, List.append_assoc, List.append_assoc]
      exact .behind _
  emit hkind hstart hslice := ⟨hkind, hstart, .inl (eq_of_mended_nil hslice)⟩
  word h _ := ⟨h.kind, fun hk => h.text.resolve_right fun hnot => by
    rw [hnot.1] at hk
    rcases hk with hk | hk <;> cases hk⟩

/-- **After the contents two texts are read abreast.** -/
theorem Reading.abreast_swapped {r : Reading} {u old after : List Char} (new : List Char)
    (htracks : Tracks (u ++ (old ++ after)) r) (hrest : r.rest = old ++ after) :
    Abreast (.swapped u old new (u ++ (old ++ after)) (u ++ (new ++ after))) 0 0
      (r.emit .htmlText old.length) ((r.onto (new ++ after)).emit .htmlText new.length) := by
  have hoffset : r.place.offset = u.length := by
    have h1 := congrArg List.length htracks.rest
    have h2 := htracks.le
    simp only [hrest, List.length_drop, List.length_append] at h1 h2
    omega
  have hplace : r.place = Cursor.start.over u := by
    have := htracks.place
    rwa [hoffset, List.take_left' rfl] at this
  have hu : ∀ {text : List Char} {n : Nat}, n ≤ u.length → (u ++ text).take n = u.take n :=
    fun hn => List.take_append_of_le_length hn
  refine ⟨⟨u ++ old, u ++ new, ?_, ?_, ?_, ?_, ?_⟩, ?_, ⟨r.next + 1, by simp, by simp⟩,
    fun i t' ht' => ?_⟩
  · rw [rest_emit, hrest, List.drop_left' rfl, List.append_assoc]
  · rw [rest_emit, onto_rest, List.drop_left' rfl, List.append_assoc]
  · show r.place.over (r.rest.take old.length) = _
    rw [hrest, List.take_left' rfl, Cursor.over_append, hplace]
  · show r.place.over ((new ++ after).take new.length) = _
    rw [List.take_left' rfl, Cursor.over_append, hplace]
  · have : Swapped u old new (u ++ (old ++ [])) (u ++ (new ++ [])) := .behind []
    rwa [List.append_nil, List.append_nil] at this
  · rw [rest_emit, rest_emit, hrest, onto_rest, List.drop_left' rfl, List.drop_left' rfl]
    exact Mended.refl fun e he => by cases he
  · rw [tokens_emit, onto_tokens, Nat.add_zero, Array.getElem?_push] at ht'
    split at ht'
    · next hi =>
      obtain rfl := Option.some.inj ht'
      refine ⟨r.token .htmlText old.length, ?_, rfl, ?_, .inr ⟨rfl, ?_, ?_⟩⟩
      · rw [tokens_emit, Nat.add_zero, hi, Array.getElem?_push_size]
      · show Swapped u old new (List.take r.place.offset _) (List.take r.place.offset _)
        rw [hu (Nat.le_of_eq hoffset), hu (Nat.le_of_eq hoffset)]
        exact .before _
      · show r.rest.take old.length = old
        rw [hrest, List.take_left' rfl]
      · show (new ++ after).take new.length = new
        rw [List.take_left' rfl]
    · have hlt := (Array.getElem?_eq_some_iff.mp ht').1
      have hat := htracks.tokens.token i t' ht'
      have hstop := htracks.tokens.stop_le i t' ht'
      have hstart : t'.start ≤ u.length := by
        have := hat.lt
        omega
      refine ⟨t', ?_, rfl, ?_, .inl rfl⟩
      · rw [tokens_emit, Nat.add_zero, Array.getElem?_push_lt hlt, ← ht',
          Array.getElem?_eq_getElem hlt]
      · rw [hu hstart, hu hstart]
        exact .before _

theorem Stacked.refl (frames : List Frame) (done : List Node) :
    Stacked 0 0 [] [] frames done frames done := by
  induction frames generalizing done with
  | nil =>
    have : Stacked 0 0 [] [] [] (nodesMoved 0 done ++ []) [] (nodesMoved 0 done ++ []) :=
      .bottom done
    rwa [nodesMoved_zero, List.append_nil] at this
  | cons f frames ih =>
    cases f with
    | element name tag opened before =>
      have := Stacked.element name tag opened opened done (ih before)
      rwa [nodesMoved_zero, StartTag.moved_zero] at this
    | block keyword opened finished tag before =>
      have := Stacked.block keyword opened opened finished tag done (ih before)
      rwa [nodesMoved_zero, branchesMoved_zero, BlockTag.moved_zero] at this

/-- **The trees grow in step** from the run on. -/
theorem OpenTree.Run.mates {v : OpenTree} {x old new y rest : List Char}
    (h : v.Run x old y rest) (h' : (v.onto (x ++ (new ++ y) ++ rest)).Run x new y rest)
    {u : List Char} (htracks : Tracks (u ++ (old ++ (y ++ rest))) v.reading) :
    v.text.Mates (.swapped u old new (u ++ (old ++ (y ++ rest))) (u ++ (new ++ (y ++ rest)))) 0 0
      [] [] (v.onto (x ++ (new ++ y) ++ rest)).text := by
  obtain ⟨ts, hts, -⟩ := Reading.reads_run (some .htmlText) .htmlText (by simp)
    (fun _ h => .inr h) x.length v.reading
  have hrun : v.reading.rest.take x.length ++ (new ++ (y ++ rest)) = x ++ (new ++ y) ++ rest := by
    rw [h.rest_eq, List.append_assoc, List.take_left' rfl]
    simp only [List.append_assoc]
  have honto := Reading.run_onto (r := v.reading) (some .htmlText) .htmlText (n := x.length)
    (by simp [h.rest_eq]) (new ++ (y ++ rest))
  rw [hrun] at honto
  have hswapped := Reading.abreast_swapped new (tracks_of_reads hts htracks) (by
    rw [Reading.rest_run, h.rest_eq]
    simp [List.append_assoc])
  have hrest : ((v.reading.run (some .htmlText) .htmlText x.length).emit .htmlText
      old.length).rest = y ++ rest := by
    rw [Reading.rest_emit, Reading.rest_run, h.rest_eq]
    simp [List.append_assoc]
  have hrest' : (((v.reading.run (some .htmlText) .htmlText x.length).onto
      (new ++ (y ++ rest))).emit .htmlText new.length).rest = y ++ rest := by
    rw [Reading.rest_emit, Reading.onto_rest]
    simp
  have hread := Reading.abreast_readStretches (some .htmlText) .htmlText hswapped hrest hrest'
    (Mended.refl fun e he => by cases he) (Mended.refl fun e he => by cases he)
  rw [← h.reading, ← honto, ← onto_reading, ← h'.reading] at hread
  have hsize : v.text.reading.last = (v.onto (x ++ (new ++ y) ++ rest)).text.reading.last := by
    obtain ⟨n, hn, hn'⟩ := hread.next
    have h1 : v.text.reading.tokens.size = n := hn
    have h2 : (v.onto (x ++ (new ++ y) ++ rest)).text.reading.tokens.size = n := hn'
    rw [Reading.last, Reading.last, h1, h2]
  refine ⟨?_, hread⟩
  show Stacked 0 0 [] [] v.frames (.text v.reading.next v.text.reading.last :: v.done) v.frames
    (.text v.reading.next (v.onto (x ++ (new ++ y) ++ rest)).text.reading.last :: v.done)
  rw [← hsize]
  exact Stacked.refl _ _

/-- **A text with another content can be read**, with the same tree over such tokens, if the content
ends no string of a quote that opened none before it. -/
theorem read_replaced {u new w : List Char} {d : Document} {i : Nat} {t : Token}
    (hd : Document.read (u ++ (t.text ++ w)) = .ok d) (ht : d.tokens[i]? = some t)
    (hkind : t.kind = .htmlText) (hstart : t.start = u.length) (hinline : Inline t.text)
    (hnew : Inline new) (hlt : '<' ∉ new) (hbrace : '{' ∉ new)
    (hquotes : ∀ (j : Nat) (quote : Char), j < i → Stands d.tokens j .expression [quote] →
      isQuote quote = true → stringTail? quote new = none) :
    ∃ d', Document.read (u ++ (new ++ w)) = .ok d' ∧
      Regrown (Altered u t.text new (u ++ (t.text ++ w)) (u ++ (new ++ w))) 0 0 [] [] d d' := by
  obtain ⟨x, hx, -, -, htokens, -, -⟩ := grow_of_read hd
  rw [htokens] at ht hquotes
  obtain ⟨v, z, hv, hz, hlo, hhi⟩ := OpenTree.exists_steps_of_lt hx (Nat.zero_le i)
    (Array.getElem?_eq_some_iff.mp ht).1
  have hvz : (OpenTree.start _).Becomes z := hv.tail hz
  obtain ⟨⟨ts, hts⟩, hvfits⟩ := hv.grows (fits_start _)
  obtain ⟨⟨us, hus⟩, hzfits⟩ := hvz.grows (fits_start _)
  have htracks := tracks_of_reads hts (tracks_start _)
  have hxz := hx
  rw [hvz.grow] at hxz
  obtain ⟨⟨⟨vs, hzx⟩, -⟩, -⟩ := OpenTree.grows_grow hxz (hzfits (fits_start _))
  obtain ⟨⟨⟨ws, hvx⟩, -⟩, -⟩ := OpenTree.grows_grow (hv.grow.symm.trans hx) (hvfits (fits_start _))
  have hztoken : z.reading.tokens[i]? = some t := by
    have := hzx.getElem? (Array.getElem?_eq_getElem hhi)
    rw [ht] at this
    rw [Option.some.inj this, ← Array.getElem?_eq_getElem hhi]
  obtain ⟨a, y, rest, hrun, rfl, htoken⟩ :=
    OpenTree.exists_run hz (hvfits (fits_start _)) hztoken hlo hkind hinline
  -- The run stands where the token stands.
  obtain ⟨q, hq, -, hall⟩ := OpenTree.becomes_onto hv (fits_start _) hrun.endsText_eq hz.1
  obtain ⟨rs, hrs, -⟩ := Reading.reads_run (some .htmlText) .htmlText (by simp)
    (fun _ h => .inr h) a.length v.reading
  have hafter := (tracks_of_reads hrs htracks).rest
  have hoffset : (v.reading.run (some .htmlText) .htmlText a.length).place.offset = u.length := by
    rw [← hstart, htoken]
    rfl
  rw [hoffset, List.drop_left' rfl, Reading.rest_run, hrun.rest_eq, List.append_assoc,
    List.drop_left' rfl, List.append_assoc] at hafter
  obtain rfl : w = y ++ rest := (List.append_cancel_left hafter).symm
  obtain rfl : u = q ++ a := by
    have : u ++ (t.text ++ (y ++ rest)) = q ++ v.reading.rest := hq
    rw [hrun.rest_eq, List.append_assoc, List.append_assoc, ← List.append_assoc q] at this
    exact List.append_cancel_right this
  have hrun' := hrun.replace hnew hlt hbrace
  have hquiet : Quiet v.reading.tokens v.reading.rest (a ++ (new ++ y) ++ rest) := by
    refine hrun.quiet fun quote hlone => ?_
    obtain ⟨hquote, j, hj⟩ := hlone
    have hlt : j < v.reading.next := (Array.getElem?_eq_some_iff.mp hj.choose_spec.1).1
    exact hquotes j quote (Nat.lt_of_lt_of_le hlt hlo)
      (hj.mono fun i s hs => hvx.getElem? hs) hquote
  have hmended : (OpenTree.start (q ++ a ++ (new ++ (y ++ rest)))).grow =
      (v.onto (a ++ (new ++ y) ++ rest)).text.grow := by
    have hbecomes := hall _ (by simp [hnew.1.ne_nil]) hquiet
    have hsplit : q ++ (a ++ (new ++ y) ++ rest) = q ++ a ++ (new ++ (y ++ rest)) := by
      simp only [List.append_assoc]
    rw [hsplit] at hbecomes
    exact hbecomes.grow.trans (OpenTree.Steps.grow
      ⟨by simp [hnew.1.ne_nil], step_text hrun'.endsText_eq⟩)
  exact regrown_of_mates hd hvz.grow hmended (hrun.mates hrun' htracks) (hzfits (fits_start _))
    (tracks_of_reads hus (tracks_start _))

end MarkupIndent.Markup
