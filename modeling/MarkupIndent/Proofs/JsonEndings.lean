import MarkupIndent.Markup.Reading
import MarkupIndent.Proofs.ReadBack

/-!
# JSON with more text behind it

What is found in a text, be it a value or a number of too many digits, is found again with more text
behind it and more room for values. A text that is no value may become one when something is added,
but not by an ending that begins nothing that a value could go on with: then the text stays what it
is, or one of its strings swallows the beginning of the ending, and nothing goes on from there
either.

* `within_suffix`: a reader takes the beginning of a text.
* `within_extends`: **what is found is found again** in more text, with more room.
* `Stray`: an ending that no value goes on with.
* `Strays`, `within_stray`: what readers make of a text with a stray ending, by induction on their
  room.
* `read_stray`: **no text becomes a value by a stray ending**, and a number of too many digits is met
  with it as without it.
-/

namespace MarkupIndent.Json

open Markup (bind_eq_ok map_eq_ok)
open Text

/-! ## Steps of the readers -/

theorem onto_ok {α : Type} (z : List Char) (a : α) (rest : List Char) :
    onto z (.ok (a, rest)) = .ok (a, rest ++ z) := rfl

theorem onto_nil {α : Type} (x : Except Refusal (α × List Char)) : onto [] x = x := by
  cases x with
  | error refusal => rfl
  | ok p => rw [onto_ok, List.append_nil]

theorem onto_map {α β : Type} (z : List Char) (f : α → β) (x : Except Refusal (α × List Char)) :
    onto z (x.map fun p => (f p.1, p.2)) = (onto z x).map fun p => (f p.1, p.2) := by
  cases x <;> rfl

theorem skipSpace_append {text : List Char} (h : skipSpace text ≠ []) (z : List Char) :
    skipSpace (text ++ z) = skipSpace text ++ z := by
  rw [skipSpace, List.dropWhile_append, if_neg (by simpa [skipSpace] using h)]
  rfl

theorem skipSpace_append_cons {text rest : List Char} {c : Char} (h : skipSpace text = c :: rest)
    (z : List Char) : skipSpace (text ++ z) = c :: (rest ++ z) := by
  rw [skipSpace_append (by simp [h]), h, List.cons_append]

theorem skipSpace_append_nil {text : List Char} (h : skipSpace text = []) (z : List Char) :
    skipSpace (text ++ z) = skipSpace z := by
  rw [skipSpace, List.dropWhile_append, if_pos (by simpa [skipSpace] using h)]
  rfl

theorem skipSpace_suffix (text : List Char) : skipSpace text <:+ text :=
  List.dropWhile_suffix _

section Steps

variable (bound : Nat) (text : List Char)

theorem valueWithin_quote : valueWithin (bound + 1) ('"' :: text) =
    (orMalformed (string? text)).map fun p => (.text p.1, p.2) := rfl

theorem valueWithin_list : valueWithin (bound + 1) ('[' :: text) =
    inBrackets ']' (.list []) (fun text => (itemsWithin bound text).map fun p => (.list p.1, p.2))
      text := rfl

theorem valueWithin_table : valueWithin (bound + 1) ('\x7b' :: text) =
    inBrackets '\x7d' (.table [])
      (fun text => (fieldsWithin bound [] text).map fun p => (.table p.1, p.2)) text := rfl

theorem valueWithin_plain (h : ∀ c ∈ text.head?, c ≠ '"' ∧ c ≠ '[' ∧ c ≠ '\x7b') :
    valueWithin (bound + 1) text = plain text := by
  unfold valueWithin
  split
  · exact absurd rfl (h _ rfl).1
  · exact absurd rfl (h _ rfl).2.1
  · exact absurd rfl (h _ rfl).2.2
  · rfl

theorem itemsWithin_succ : itemsWithin (bound + 1) text =
    valueWithin bound text >>= fun p =>
      afterItem ']' [p.1] (fun text => (itemsWithin bound text).map fun q => (p.1 :: q.1, q.2))
        p.2 := rfl

/-- A field after its name, and those behind it. -/
def fieldAfter (fields : List (LooseText × Value)) (name : LooseText) (rest : List Char) :
    Except Refusal (List (LooseText × Value) × List Char) :=
  match skipSpace rest with
  | ':' :: rest => valueWithin bound (skipSpace rest) >>= fun p =>
    afterItem '\x7d' (Value.setField fields name p.1)
      (fun text => fieldsWithin bound (Value.setField fields name p.1) text) p.2
  | _ => .error .malformed

theorem fieldsWithin_quote (fields : List (LooseText × Value)) :
    fieldsWithin (bound + 1) fields ('"' :: text) =
      orMalformed (string? text) >>= fun p => fieldAfter bound fields p.1 p.2 := rfl

theorem fieldsWithin_error (fields : List (LooseText × Value)) (h : text.head? ≠ some '"') :
    fieldsWithin bound fields text = .error .malformed := by
  unfold fieldsWithin
  split
  · rfl
  · split
    · exact absurd rfl h
    · rfl

variable {bound}

theorem fieldAfter_colon (fields : List (LooseText × Value)) (name : LooseText)
    {rest more : List Char} (h : skipSpace rest = ':' :: more) :
    fieldAfter bound fields name rest = valueWithin bound (skipSpace more) >>= fun p =>
      afterItem '\x7d' (Value.setField fields name p.1)
        (fun text => fieldsWithin bound (Value.setField fields name p.1) text) p.2 := by
  simp only [fieldAfter, h]

theorem fieldAfter_error (fields : List (LooseText × Value)) (name : LooseText) {rest : List Char}
    (h : (skipSpace rest).head? ≠ some ':') :
    fieldAfter bound fields name rest = .error .malformed := by
  unfold fieldAfter
  split
  · next heq => exact absurd (congrArg List.head? heq) h
  · rfl

end Steps

/-! ## What is left of a text -/

theorem unitsAfter_suffix {seen : List Nat} {text : List Char} {found : List Nat × List Char}
    (h : unitsAfter seen text = some found) : found.2 <:+ text := by
  fun_induction unitsAfter seen text with
  | case1 => cases h
  | case2 =>
    cases h
    exact List.suffix_cons _ _
  | case3 seen a b c d rest ih =>
    obtain ⟨n, -, h⟩ := Option.bind_eq_some_iff.mp h
    exact (ih n h).trans (List.suffix_append ['\\', 'u', a, b, c, d] rest)
  | case4 seen c rest _ ih =>
    obtain ⟨n, -, h⟩ := Option.bind_eq_some_iff.mp h
    exact (ih n h).trans (List.suffix_append ['\\', c] rest)
  | case5 => cases h
  | case6 seen c rest _ _ _ _ ih => exact (ih h).trans (List.suffix_cons c rest)

theorem string?_suffix {text : List Char} {found : LooseText × List Char}
    (h : string? text = some found) : found.2 <:+ text := by
  obtain ⟨p, hp, rfl⟩ := Option.map_eq_some_iff.mp h
  exact unitsAfter_suffix hp

theorem orMalformed_suffix {text : List Char} {found : LooseText × List Char}
    (h : orMalformed (string? text) = .ok found) : found.2 <:+ text := by
  cases hs : string? text with
  | none =>
    rw [hs] at h
    cases h
  | some p =>
    rw [hs] at h
    cases h
    exact string?_suffix hs

theorem plain_suffix {text : List Char} {found : Value × List Char} (h : plain text = .ok found) :
    found.2 <:+ text := by
  obtain ⟨word, ⟨htext, -⟩, -⟩ := plain_isPiece h
  rw [htext]
  exact List.suffix_append word found.2

theorem afterItem_suffix {α : Type} {close : Char} {a : α}
    {next : List Char → Except Refusal (α × List Char)}
    (hnext : ∀ text found, next text = .ok found → found.2 <:+ text) {text : List Char}
    {found : α × List Char} (h : afterItem close a next text = .ok found) : found.2 <:+ text := by
  have hspace := skipSpace_suffix text
  unfold afterItem at h
  split at h
  · next c rest heq =>
    rw [heq] at hspace
    have hrest := (List.suffix_cons c rest).trans hspace
    split at h
    · cases h
      exact hrest
    · split at h
      · exact ((hnext _ _ h).trans (skipSpace_suffix rest)).trans hrest
      · cases h
  · cases h

theorem inBrackets_suffix {α : Type} {close : Char} {a : α}
    {next : List Char → Except Refusal (α × List Char)}
    (hnext : ∀ text found, next text = .ok found → found.2 <:+ text) {text : List Char}
    {found : α × List Char} (h : inBrackets close a next text = .ok found) : found.2 <:+ text := by
  have hspace := skipSpace_suffix text
  unfold inBrackets at h
  split at h
  · next c rest heq =>
    rw [heq] at hspace
    split at h
    · cases h
      exact (List.suffix_cons c rest).trans hspace
    · exact (hnext _ _ h).trans hspace
  · cases h

/-- **A reader takes the beginning of a text.** -/
theorem within_suffix (bound : Nat) :
    (∀ text found, valueWithin bound text = .ok found → found.2 <:+ text) ∧
    (∀ text found, itemsWithin bound text = .ok found → found.2 <:+ text) ∧
    ∀ fields text found, fieldsWithin bound fields text = .ok found → found.2 <:+ text := by
  induction bound with
  | zero =>
    exact ⟨fun _ _ h => (by cases h), fun _ _ h => (by cases h), fun _ _ _ h => (by cases h)⟩
  | succ bound ih =>
    obtain ⟨hvalue, hitems, hfields⟩ := ih
    refine ⟨fun text found h => ?_, fun text found h => ?_, fun fields text found h => ?_⟩
    · unfold valueWithin at h
      split at h
      · next rest =>
        obtain ⟨p, hstring, rfl⟩ := map_eq_ok.mp h
        exact (orMalformed_suffix hstring).trans (List.suffix_cons _ rest)
      · next rest =>
        refine (inBrackets_suffix (fun text p hp => ?_) h).trans (List.suffix_cons '[' rest)
        obtain ⟨items, hread, rfl⟩ := map_eq_ok.mp hp
        exact hitems _ _ hread
      · next rest =>
        refine (inBrackets_suffix (fun text p hp => ?_) h).trans (List.suffix_cons '\x7b' rest)
        obtain ⟨fields, hread, rfl⟩ := map_eq_ok.mp hp
        exact hfields _ _ _ hread
      · exact plain_suffix h
    · rw [itemsWithin_succ] at h
      obtain ⟨p, hread, h⟩ := bind_eq_ok.mp h
      refine (afterItem_suffix (fun rest q hq => ?_) h).trans (hvalue _ _ hread)
      obtain ⟨found, hmore, rfl⟩ := map_eq_ok.mp hq
      exact hitems _ found hmore
    · by_cases hquote : text.head? = some '"'
      · obtain ⟨rest, rfl⟩ := List.head?_eq_some_iff.mp hquote
        rw [fieldsWithin_quote] at h
        obtain ⟨p, hname, h⟩ := bind_eq_ok.mp h
        have hrest := (skipSpace_suffix p.2).trans
          ((orMalformed_suffix hname).trans (List.suffix_cons '"' rest))
        unfold fieldAfter at h
        split at h
        · next more heq =>
          obtain ⟨q, hread, h⟩ := bind_eq_ok.mp h
          rw [heq] at hrest
          have hmore := (skipSpace_suffix more).trans ((List.suffix_cons _ more).trans hrest)
          exact (afterItem_suffix (fun _ _ hq => hfields _ _ _ hq) h).trans
            ((hvalue _ _ hread).trans hmore)
        · cases h
      · rw [fieldsWithin_error _ _ _ hquote] at h
        cases h

/-! ## What is found is found again -/

theorem unitsAfter_extends {seen : List Nat} {text : List Char} {units : List Nat}
    {rest : List Char} (h : unitsAfter seen text = some (units, rest)) (z : List Char) :
    unitsAfter seen (text ++ z) = some (units, rest ++ z) := by
  fun_induction unitsAfter seen text with
  | case1 => cases h
  | case2 =>
    cases h
    rfl
  | case3 seen a b c d more ih =>
    obtain ⟨n, hn, h⟩ := Option.bind_eq_some_iff.mp h
    simp only [List.cons_append, unitsAfter, hn, Option.bind_eq_bind, Option.bind_some, ih n h]
  | case4 seen c more hne ih =>
    obtain ⟨n, hn, h⟩ := Option.bind_eq_some_iff.mp h
    have hu : c ≠ 'u' := by
      rintro rfl
      cases hn
    rw [List.cons_append, List.cons_append, unitsAfter]
    · simp only [hn, Option.bind_eq_bind, Option.bind_some, ih n h]
    · rintro a b c' d rest rfl
      exact absurd rfl hu
  | case5 => cases h
  | case6 seen c more hquote hunit hescape hc ih =>
    -- a backslash at the end of the text would have been read as the end of a string
    have hslash : c ≠ '\\' := by
      rintro rfl
      cases more with
      | nil => cases h
      | cons d more => exact hescape d more rfl rfl
    rw [List.cons_append, unitsAfter_cons hquote hslash, if_neg hc, ih h]

theorem string?_extends {text : List Char} {t : LooseText} {rest : List Char}
    (h : string? text = some (t, rest)) (z : List Char) :
    string? (text ++ z) = some (t, rest ++ z) := by
  obtain ⟨p, hp, heq⟩ := Option.map_eq_some_iff.mp h
  cases heq
  rw [string?, unitsAfter_extends hp]
  rfl

/-- What is found in a text, be it a refusal of a number, is found again with `z` behind it. -/
def Lasts {α : Type} (z : List Char) (x y : Except Refusal (α × List Char)) : Prop :=
  x = .error .malformed ∨ y = onto z x

theorem Lasts.map {α β : Type} {z : List Char} {x y : Except Refusal (α × List Char)}
    (h : Lasts z x y) (f : α → β) :
    Lasts z (x.map fun p => (f p.1, p.2)) (y.map fun p => (f p.1, p.2)) := by
  rcases h with rfl | rfl
  · exact .inl rfl
  · exact .inr (onto_map z f x).symm

/-- What is found lasts if each of two steps lasts. -/
theorem Lasts.bind {α β : Type} {z : List Char} {x y : Except Refusal (α × List Char)}
    (h : Lasts z x y) {f g : α × List Char → Except Refusal (β × List Char)}
    (hstep : ∀ a rest, x = .ok (a, rest) → Lasts z (f (a, rest)) (g (a, rest ++ z))) :
    Lasts z (x >>= f) (y >>= g) := by
  rcases h with rfl | rfl
  · exact .inl rfl
  · cases x with
    | error refusal => exact .inr rfl
    | ok p => exact hstep p.1 p.2 rfl

theorem lasts_afterItem {α : Type} {z : List Char} {close : Char} {a : α}
    {next next' : List Char → Except Refusal (α × List Char)} (hnil : next [] = .error .malformed)
    (hnext : ∀ text, Lasts z (next text) (next' (text ++ z))) (rest : List Char) :
    Lasts z (afterItem close a next rest) (afterItem close a next' (rest ++ z)) := by
  cases hrest : skipSpace rest with
  | nil => exact .inl (by rw [afterItem, hrest])
  | cons c more =>
    have happend := skipSpace_append_cons hrest z
    simp only [afterItem, hrest, happend]
    split
    · exact .inr rfl
    · split
      · by_cases hmore : skipSpace more = []
        · exact .inl (by rw [hmore, hnil])
        · rw [skipSpace_append hmore]
          exact hnext _
      · exact .inl rfl

theorem valueWithin_nil (bound : Nat) : valueWithin bound [] = .error .malformed := by
  cases bound <;> rfl

theorem itemsWithin_nil (bound : Nat) : itemsWithin bound [] = .error .malformed := by
  cases bound with
  | zero => rfl
  | succ bound =>
    rw [itemsWithin_succ, valueWithin_nil]
    rfl

theorem fieldsWithin_nil (bound : Nat) (fields : List (LooseText × Value)) :
    fieldsWithin bound fields [] = .error .malformed :=
  fieldsWithin_error bound [] fields (by simp)

theorem lasts_string (text z : List Char) :
    Lasts z (orMalformed (string? text)) (orMalformed (string? (text ++ z))) := by
  cases h : string? text with
  | none => exact .inl rfl
  | some p => exact .inr (by rw [string?_extends h]; rfl)

theorem lasts_inBrackets {α : Type} {z : List Char} {close : Char} {a : α}
    {next next' : List Char → Except Refusal (α × List Char)}
    (hnext : ∀ text, Lasts z (next text) (next' (text ++ z))) (text : List Char) :
    Lasts z (inBrackets close a next text) (inBrackets close a next' (text ++ z)) := by
  cases htext : skipSpace text with
  | nil => exact .inl (by rw [inBrackets, htext])
  | cons c rest =>
    have happend := skipSpace_append_cons htext z
    simp only [inBrackets, htext, happend]
    split
    · exact .inr rfl
    · exact hnext (c :: rest)

section Extends

variable {z : List Char} {bound room : Nat}
  (hvalue : ∀ text, Lasts z (valueWithin bound text) (valueWithin room (text ++ z)))
  (hfields : ∀ fields text,
    Lasts z (fieldsWithin bound fields text) (fieldsWithin room fields (text ++ z)))
include hvalue hfields

theorem lasts_fieldAfter (fields : List (LooseText × Value)) (name : LooseText) (rest : List Char) :
    Lasts z (fieldAfter bound fields name rest) (fieldAfter room fields name (rest ++ z)) := by
  by_cases hcolon : (skipSpace rest).head? = some ':'
  · obtain ⟨more, hrest⟩ := List.head?_eq_some_iff.mp hcolon
    have happend := skipSpace_append_cons hrest z
    rw [fieldAfter_colon _ _ hrest, fieldAfter_colon _ _ happend]
    by_cases hmore : skipSpace more = []
    · refine .inl ?_
      rw [hmore, valueWithin_nil]
      rfl
    · rw [skipSpace_append hmore]
      exact (hvalue _).bind fun value rest _ =>
        lasts_afterItem (fieldsWithin_nil _ _) (hfields _) rest
  · exact .inl (fieldAfter_error _ _ hcolon)

end Extends

/-- **What is found is found again** in more text, if that goes on with no number or word, and with
more room. -/
theorem within_extends {z : List Char} (hz : EndsWord z) {bound room : Nat} (h : bound ≤ room) :
    (∀ text, Lasts z (valueWithin bound text) (valueWithin room (text ++ z))) ∧
    (∀ text, Lasts z (itemsWithin bound text) (itemsWithin room (text ++ z))) ∧
    ∀ fields text,
      Lasts z (fieldsWithin bound fields text) (fieldsWithin room fields (text ++ z)) := by
  induction bound generalizing room with
  | zero => exact ⟨fun _ => .inl rfl, fun _ => .inl rfl, fun _ _ => .inl rfl⟩
  | succ bound ih =>
    obtain ⟨room, rfl⟩ := Nat.exists_eq_add_of_le' h
    obtain ⟨hvalue, hitems, hfields⟩ := ih (Nat.le_add_left bound room)
    rw [← Nat.add_assoc]
    refine ⟨fun text => ?_, fun text => ?_, fun fields text => ?_⟩
    · cases text with
      | nil => exact .inl (valueWithin_nil _)
      | cons c rest =>
        rw [List.cons_append]
        by_cases hquote : c = '"'
        · subst hquote
          exact (lasts_string rest z).map _
        by_cases hlist : c = '['
        · subst hlist
          rw [valueWithin_list, valueWithin_list]
          exact lasts_inBrackets (fun text => (hitems text).map Value.list) rest
        by_cases htable : c = '\x7b'
        · subst htable
          rw [valueWithin_table, valueWithin_table]
          exact lasts_inBrackets (fun text => (hfields [] text).map Value.table) rest
        rw [valueWithin_plain _ _ (by simp [hquote, hlist, htable]),
          valueWithin_plain _ _ (by simp [hquote, hlist, htable]), ← List.cons_append,
          plain_append hz]
        exact .inr rfl
    · rw [itemsWithin_succ, itemsWithin_succ]
      refine (hvalue text).bind fun item rest _ => lasts_afterItem ?_ (fun more => ?_) rest
      · rw [itemsWithin_nil]
        rfl
      · exact (hitems more).map _
    · by_cases hquote : text.head? = some '"'
      · obtain ⟨rest, rfl⟩ := List.head?_eq_some_iff.mp hquote
        rw [List.cons_append, fieldsWithin_quote, fieldsWithin_quote]
        exact (lasts_string rest z).bind fun name rest _ =>
          lasts_fieldAfter hvalue hfields fields name rest
      · exact .inl (fieldsWithin_error _ _ _ hquote)

/-- More room for a value changes nothing that was found. -/
theorem valueWithin_of_le {bound room : Nat} (h : bound ≤ room) (text : List Char) :
    valueWithin bound text = .error .malformed ∨
      valueWithin room text = valueWithin bound text := by
  have hnil : EndsWord [] := fun _ h => by cases h
  have hlasts := (within_extends hnil h).1 text
  rwa [Lasts, List.append_nil, onto_nil] at hlasts

/-- A text that is a value by itself is all of it for any room, or the room is too small. -/
theorem valueWithin_whole {bound : Nat} {text : List Char} {v : Value}
    (h : valueWithin bound text = .ok (v, [])) (room : Nat) :
    valueWithin room text = .error .malformed ∨ valueWithin room text = .ok (v, []) := by
  rcases Nat.le_total bound room with hle | hle
  · refine .inr (((valueWithin_of_le hle text).resolve_left fun hbad => ?_).trans h)
    rw [h] at hbad
    cases hbad
  · exact (valueWithin_of_le hle text).imp_right fun hsame => hsame.symm.trans h

/-! ## Endings that no value goes on with -/

/-- The characters that stand between the values of a list or a table, and behind them. -/
def isMark (c : Char) : Bool :=
  c == ',' || c == ':' || c == ']' || c == '\x7d'

/-- No mark comes next. -/
def Unmarked (rest : List Char) : Prop :=
  ∀ c ∈ (skipSpace rest).head?, isMark c = false

/-- An ending that no value goes on with: no number, word, mark or string begins with it; a value
that stands there is all of it; and what comes after a string that ends in it is no mark. -/
structure Stray (z : List Char) : Prop where
  endsWord : EndsWord z
  nonblank : skipSpace z ≠ []
  unmarked : Unmarked z
  unquoted : (skipSpace z).head? ≠ some '"'
  whole : ∀ room, valueWithin room (skipSpace z) = .error .malformed ∨
    ∃ v rest, valueWithin room (skipSpace z) = .ok (v, rest) ∧ skipSpace rest = []
  string : ∀ text t rest, string? text = none → string? (text ++ z) = some (t, rest) →
    Unmarked rest ∧ skipSpace rest ≠ []

/-- Nothing comes of an ending: what was found before it is found as before. -/
def Vain {α : Type} (z : List Char) (x y : Except Refusal (α × List Char)) : Prop :=
  y = .error .malformed ∨ y = onto z x

/-- A reader of values that gets to a place from which nothing goes on. -/
def Stuck (text : List Char) (y : Except Refusal (Value × List Char)) : Prop :=
  ∃ v rest, y = .ok (v, rest) ∧ Unmarked rest ∧ (skipSpace text ≠ [] → skipSpace rest ≠ [])

theorem Vain.map {α β : Type} {z : List Char} {x y : Except Refusal (α × List Char)}
    (h : Vain z x y) (f : α → β) :
    Vain z (x.map fun p => (f p.1, p.2)) (y.map fun p => (f p.1, p.2)) := by
  rcases h with rfl | rfl
  · exact .inl rfl
  · exact .inr (onto_map z f x).symm

theorem Vain.bind {α β : Type} {z : List Char} {x y : Except Refusal (α × List Char)}
    (h : Vain z x y) {f g : α × List Char → Except Refusal (β × List Char)}
    (hstep : ∀ a rest, x = .ok (a, rest) → Vain z (f (a, rest)) (g (a, rest ++ z))) :
    Vain z (x >>= f) (y >>= g) := by
  rcases h with rfl | rfl
  · exact .inl rfl
  · cases x with
    | error refusal => exact .inr rfl
    | ok p => exact hstep p.1 p.2 rfl

theorem afterItem_unmarked {α : Type} {close : Char} (hclose : isMark close = true) (a : α)
    (next : List Char → Except Refusal (α × List Char)) {rest : List Char} (h : Unmarked rest) :
    afterItem close a next rest = .error .malformed := by
  unfold afterItem
  split
  · next c more heq =>
    have hmark : isMark c = false := h c (by rw [heq]; rfl)
    rw [if_neg, if_neg]
    · rintro rfl
      cases hmark
    · rintro rfl
      rw [hmark] at hclose
      cases hclose
  · rfl

theorem fieldAfter_unmarked {bound : Nat} (fields : List (LooseText × Value)) (name : LooseText)
    {rest : List Char} (h : Unmarked rest) :
    fieldAfter bound fields name rest = .error .malformed :=
  fieldAfter_error _ _ fun hcolon => absurd (h ':' hcolon) (by decide)

section Stray

variable {z : List Char} (hz : Stray z)
include hz

/-- Spaces alone end as the ending does. -/
theorem Stray.unmarked_append {rest : List Char} (h : skipSpace rest = []) :
    Unmarked (rest ++ z) := by
  rw [Unmarked, skipSpace_append_nil h]
  exact hz.unmarked

theorem vain_afterItem {α : Type} {close : Char} (hclose : isMark close = true) {a : α}
    {next next' : List Char → Except Refusal (α × List Char)} (rest : List Char)
    (hnext : ∀ more : List Char, more.length < rest.length →
      Vain z (next (skipSpace more)) (next' (skipSpace (more ++ z)))) :
    Vain z (afterItem close a next rest) (afterItem close a next' (rest ++ z)) := by
  cases hrest : skipSpace rest with
  | nil => exact .inl (afterItem_unmarked hclose _ _ (hz.unmarked_append hrest))
  | cons c more =>
    have happend := skipSpace_append_cons hrest z
    have hlength := (skipSpace_suffix rest).length_le
    rw [hrest] at hlength
    simp only [afterItem, hrest, happend]
    split
    · exact .inr rfl
    · split
      · exact hnext more hlength
      · exact .inl rfl

theorem vain_inBrackets {α : Type} {close : Char} (hclose : isMark close = true) {a : α}
    {next next' : List Char → Except Refusal (α × List Char)} {text : List Char}
    (hnil : next [] = .error .malformed)
    (hnext : Vain z (next (skipSpace text)) (next' (skipSpace (text ++ z)))) :
    Vain z (inBrackets close a next text) (inBrackets close a next' (text ++ z)) := by
  cases htext : skipSpace text with
  | nil =>
    rw [htext, hnil, skipSpace_append_nil htext] at hnext
    obtain ⟨c, rest, hc⟩ := List.exists_cons_of_ne_nil hz.nonblank
    have hmark := hz.unmarked c (by rw [hc]; rfl)
    have hne : c ≠ close := by
      rintro rfl
      rw [hmark] at hclose
      cases hclose
    left
    rw [hc] at hnext
    simp only [inBrackets, skipSpace_append_nil htext, hc, if_neg hne]
    exact hnext.elim id id
  | cons c rest =>
    have happend := skipSpace_append_cons htext z
    rw [htext, happend] at hnext
    simp only [inBrackets, htext, happend]
    split
    · exact .inr rfl
    · exact hnext

theorem vain_string (text : List Char) :
    Vain z (orMalformed (string? text)) (orMalformed (string? (text ++ z))) ∨
      ∃ t rest, string? text = none ∧ string? (text ++ z) = some (t, rest) ∧ Unmarked rest ∧
        skipSpace rest ≠ [] := by
  cases h : string? text with
  | some p =>
    left
    right
    rw [string?_extends h]
    rfl
  | none =>
    cases hz' : string? (text ++ z) with
    | none => exact .inl (.inl rfl)
    | some p =>
      obtain ⟨hmark, hne⟩ := hz.string text p.1 p.2 h hz'
      exact .inr ⟨p.1, p.2, rfl, rfl, hmark, hne⟩

omit hz in
/-- A value and what comes after it. -/
theorem vain_value {α : Type} {text : List Char} {x y : Except Refusal (Value × List Char)}
    {f g : Value × List Char → Except Refusal (α × List Char)} (h : Vain z x y ∨ Stuck text y)
    (hstep : ∀ v rest, x = .ok (v, rest) → Vain z (f (v, rest)) (g (v, rest ++ z)))
    (hstuck : ∀ v rest, Unmarked rest → g (v, rest) = .error .malformed) :
    Vain z (x >>= f) (y >>= g) := by
  rcases h with h | ⟨v, rest, rfl, hmark, -⟩
  · exact h.bind hstep
  · exact .inl (hstuck v rest hmark)

/-- What readers with some room make of a text with an ending: what they make of it without, or
nothing, or a value from which nothing goes on. -/
structure Strays (z : List Char) (room : Nat) : Prop where
  value : ∀ (bound : Nat) (text : List Char), 2 * (skipSpace text).length + 1 ≤ bound →
    Vain z (valueWithin bound (skipSpace text)) (valueWithin room (skipSpace (text ++ z))) ∨
      Stuck text (valueWithin room (skipSpace (text ++ z)))
  items : ∀ (bound : Nat) (text : List Char), 2 * (skipSpace text).length + 2 ≤ bound →
    Vain z (itemsWithin bound (skipSpace text)) (itemsWithin room (skipSpace (text ++ z)))
  fields : ∀ (bound : Nat) (fields : List (LooseText × Value)) (text : List Char),
    2 * (skipSpace text).length + 2 ≤ bound →
      Vain z (fieldsWithin bound fields (skipSpace text))
        (fieldsWithin room fields (skipSpace (text ++ z)))

section Room

variable {room bound : Nat} (h : Strays z room)
include h

theorem vain_fieldAfter (fields : List (LooseText × Value)) (name : LooseText) (rest : List Char)
    (hb : 2 * rest.length + 1 ≤ bound) :
    Vain z (fieldAfter bound fields name rest) (fieldAfter room fields name (rest ++ z)) := by
  cases hrest : skipSpace rest with
  | nil => exact .inl (fieldAfter_unmarked _ _ (hz.unmarked_append hrest))
  | cons c more =>
    have happend := skipSpace_append_cons hrest z
    have hlength := (skipSpace_suffix rest).length_le
    rw [hrest, List.length_cons] at hlength
    by_cases hcolon : c = ':'
    · subst hcolon
      have hmore := (skipSpace_suffix more).length_le
      rw [fieldAfter_colon _ _ hrest, fieldAfter_colon _ _ happend]
      refine vain_value (h.value bound more (by omega)) (fun v rest' hread => ?_)
        fun v rest' hmark => afterItem_unmarked rfl _ _ hmark
      have hrest' := ((within_suffix bound).1 _ _ hread).length_le
      simp only at hrest'
      refine vain_afterItem hz rfl rest' fun next hnext => h.fields bound _ next ?_
      have := (skipSpace_suffix next).length_le
      omega
    · exact .inl (fieldAfter_error _ _ (by simp [happend, hcolon]))

theorem Strays.succ_value (text : List Char) (hb : 2 * (skipSpace text).length ≤ bound) :
    Vain z (valueWithin (bound + 1) (skipSpace text))
        (valueWithin (room + 1) (skipSpace (text ++ z))) ∨
      Stuck text (valueWithin (room + 1) (skipSpace (text ++ z))) := by
  cases htext : skipSpace text with
  | nil =>
    rw [skipSpace_append_nil htext]
    rcases hz.whole (room + 1) with hnone | ⟨v, rest, hread, hrest⟩
    · exact .inl (.inl hnone)
    · refine .inr ⟨v, rest, hread, ?_, absurd htext⟩
      simp [Unmarked, hrest]
  | cons c rest =>
    have hspace := (skipSpace_suffix rest).length_le
    rw [htext, List.length_cons] at hb
    rw [skipSpace_append_cons htext z]
    by_cases hquote : c = '"'
    · subst hquote
      rw [valueWithin_quote, valueWithin_quote]
      rcases vain_string hz rest with h | ⟨t, rest', -, hread, hmark, hne⟩
      · exact .inl (h.map Value.text)
      · refine .inr ⟨.text t, rest', ?_, hmark, fun _ => hne⟩
        rw [hread]
        rfl
    by_cases hlist : c = '['
    · subst hlist
      rw [valueWithin_list, valueWithin_list]
      refine .inl (vain_inBrackets hz rfl ?_ ((h.items bound rest (by omega)).map Value.list))
      rw [itemsWithin_nil]
      rfl
    by_cases htable : c = '\x7b'
    · subst htable
      rw [valueWithin_table, valueWithin_table]
      refine .inl (vain_inBrackets hz rfl ?_
        ((h.fields bound [] rest (by omega)).map Value.table))
      rw [fieldsWithin_nil]
      rfl
    rw [valueWithin_plain _ _ (by simp [hquote, hlist, htable]),
      valueWithin_plain _ _ (by simp [hquote, hlist, htable]), ← List.cons_append,
      plain_append hz.endsWord]
    exact .inl (.inr rfl)

theorem Strays.succ_items (text : List Char) (hb : 2 * (skipSpace text).length + 1 ≤ bound) :
    Vain z (itemsWithin (bound + 1) (skipSpace text))
      (itemsWithin (room + 1) (skipSpace (text ++ z))) := by
  rw [itemsWithin_succ, itemsWithin_succ]
  refine vain_value (h.value bound text hb) (fun v rest hread => ?_)
    fun v rest hmark => afterItem_unmarked rfl _ _ hmark
  have hrest := ((within_suffix bound).1 _ _ hread).length_le
  simp only at hrest
  refine vain_afterItem hz rfl rest fun more hmore => (h.items bound more ?_).map (v :: ·)
  have := (skipSpace_suffix more).length_le
  omega

theorem Strays.succ_fields (fields : List (LooseText × Value)) (text : List Char)
    (hb : 2 * (skipSpace text).length + 1 ≤ bound) :
    Vain z (fieldsWithin (bound + 1) fields (skipSpace text))
      (fieldsWithin (room + 1) fields (skipSpace (text ++ z))) := by
  cases htext : skipSpace text with
  | nil =>
    rw [skipSpace_append_nil htext]
    exact .inl (fieldsWithin_error _ _ _ hz.unquoted)
  | cons c rest =>
    rw [htext, List.length_cons] at hb
    rw [skipSpace_append_cons htext z]
    by_cases hquote : c = '"'
    · subst hquote
      rw [fieldsWithin_quote, fieldsWithin_quote]
      rcases vain_string hz rest with hname | ⟨t, rest', -, hread, hmark, -⟩
      · refine hname.bind fun name rest' hname => ?_
        have hrest := (orMalformed_suffix hname).length_le
        simp only at hrest
        exact vain_fieldAfter hz h fields name rest' (by omega)
      · left
        rw [hread]
        exact fieldAfter_unmarked fields t hmark
    · exact .inl (fieldsWithin_error _ _ _ (by simp [hquote]))

end Room

/-- **What readers make of a text with a stray ending**, by induction on their room. -/
theorem within_stray (room : Nat) : Strays z room := by
  induction room with
  | zero => exact ⟨fun _ _ _ => .inl (.inl rfl), fun _ _ _ => .inl rfl, fun _ _ _ _ => .inl rfl⟩
  | succ room ih =>
    refine ⟨fun bound text hb => ?_, fun bound text hb => ?_, fun bound fields text hb => ?_⟩
    all_goals obtain ⟨bound, rfl⟩ : ∃ b, bound = b + 1 := ⟨bound - 1, by omega⟩
    · exact ih.succ_value hz text (by omega)
    · exact ih.succ_items hz text (by omega)
    · exact ih.succ_fields hz fields text (by omega)

omit hz in
/-- A text is refused for a number where its value is. -/
theorem read_eq_longNumber {text : List Char} {digits : Nat} :
    read text = .error (.longNumber digits) ↔
      valueWithin (2 * text.length + 1) (skipSpace text) = .error (.longNumber digits) := by
  rw [read]
  cases valueWithin (2 * text.length + 1) (skipSpace text) with
  | error refusal => simp [bind, Except.bind]
  | ok p =>
    simp only [bind, Except.bind]
    split <;> simp

/-- **No text becomes a value by a stray ending**, and a number of too many digits is met with it as
without it. -/
theorem read_stray {text : List Char} (hne : skipSpace text ≠ []) :
    (∀ digits, read text = .error (.longNumber digits) →
      read (text ++ z) = .error (.longNumber digits)) ∧
    ((∀ digits, read text ≠ .error (.longNumber digits)) →
      read (text ++ z) = .error .malformed) := by
  have hspace := (skipSpace_suffix text).length_le
  constructor
  · intro digits hlong
    have hvalue := read_eq_longNumber.mp hlong
    have hroom : 2 * text.length + 1 ≤ 2 * (text ++ z).length + 1 := by
      rw [List.length_append]
      omega
    rcases (within_extends hz.endsWord hroom).1 (skipSpace text) with h | h
    · rw [h] at hvalue
      cases hvalue
    · rw [read, skipSpace_append hne, h, hvalue]
      rfl
  · intro hshort
    rcases (within_stray hz (2 * (text ++ z).length + 1)).value (2 * text.length + 1) text (by omega)
      with (h | h) | ⟨v, rest, h, -, hrest⟩
    · rw [read, h]
      rfl
    · rw [read, h]
      cases hread : valueWithin (2 * text.length + 1) (skipSpace text) with
      | error refusal =>
        cases refusal with
        | malformed => rfl
        | longNumber digits => exact absurd (read_eq_longNumber.mpr hread) (hshort digits)
      | ok p =>
        have hmore : skipSpace (p.2 ++ z) ≠ [] := by
          by_cases hp : skipSpace p.2 = []
          · rw [skipSpace_append_nil hp]
            exact hz.nonblank
          · rw [skipSpace_append hp]
            simp [hp]
        rw [onto_ok]
        simp only [bind, Except.bind, List.isEmpty_iff, if_neg hmore]
    · rw [read, h]
      simp only [bind, Except.bind, List.isEmpty_iff, if_neg (hrest hne)]

end Stray

end MarkupIndent.Json
