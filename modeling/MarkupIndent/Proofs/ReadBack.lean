import MarkupIndent.Proofs.JsonNumbers

/-!
# What is written in JSON is read back

A value of numbers, texts, lists and tables is written on one line of printable ASCII, and what
stands on that line is read as the same value, if no whole number in it is too long and no text has
two surrogates that would be put together. Each piece has its own reason: the four digits of a unit
say its number, a code point beyond the first plane is the only one that is spelled by two
surrogates, and what follows a number is never a part of it.

Fields are written in the order of their names, so a table that is read back has the same fields in
another order; `Value.same` looks at the names only.

* `LooseText.isProper`, `Value.isExact`: what can be written without loss.
* `unitsAfter_spelling`, `join_units`: a string, spelled by its units and put together again.
* `isShort_of_isExact`: an exact value can be written.
* `valueWithin_spell`, `read_spell`: **every exact value is read back**.
* `same_ordered`: the order of fields does not matter.
* `isPlainChar_spell`: what is written is printable ASCII.
-/

namespace MarkupIndent

/-! ## What can be written without loss -/

/-- No surrogate of the first kind stands right before one of the second kind. -/
def LooseText.isUnpaired : List Nat → Bool
  | h :: l :: rest => !(Json.isHigh h && Json.isLow l) && isUnpaired (l :: rest)
  | _ => true

/-- A text is made of characters, or of characters and of surrogates that stand alone. -/
def LooseText.isProper : LooseText → Bool
  | .whole _ => true
  | .broken points =>
    isUnpaired points && points.all (· < 0x110000) && !(points.all fun n => n.isValidChar)

/-- No character is a surrogate. -/
theorem Json.isHigh_toNat (c : Char) : Json.isHigh c.toNat = false := by
  have hvalid := c.valid
  simp only [UInt32.isValidChar, Nat.isValidChar] at hvalid
  have htoNat : c.toNat = c.val.toNat := rfl
  simp only [Json.isHigh, Bool.and_eq_false_iff, decide_eq_false_iff_not]
  omega

theorem LooseText.isUnpaired_toNat (text : List Char) :
    isUnpaired (text.map Char.toNat) = true := by
  induction text with
  | nil => rfl
  | cons c rest ih =>
    cases rest with
    | nil => rfl
    | cons d rest =>
      simp only [List.map_cons, LooseText.isUnpaired, Json.isHigh_toNat, Bool.false_and,
        Bool.not_false, Bool.true_and] at ih ⊢
      exact ih

/-- The code points of a proper text are those of Unicode, and say which text it is. -/
theorem LooseText.isProper_spec {t : LooseText} (h : t.isProper = true) :
    (∀ n ∈ t.points, n < 0x110000) ∧ isUnpaired t.points = true ∧ ofPoints t.points = t := by
  cases t with
  | whole s =>
    refine ⟨fun n hn => ?_, isUnpaired_toNat s.toList, ?_⟩
    · obtain ⟨c, -, rfl⟩ := List.mem_map.mp hn
      have hvalid := c.valid
      simp only [UInt32.isValidChar, Nat.isValidChar] at hvalid
      have htoNat : c.toNat = c.val.toNat := rfl
      omega
    · have hvalid : ((s.toList.map Char.toNat).all fun n => n.isValidChar) = true := by
        simp only [List.all_map, List.all_eq_true, Function.comp_apply, decide_eq_true_eq]
        exact fun c _ => c.valid
      have hofNat : Char.ofNat ∘ Char.toNat = id := funext Char.ofNat_toNat
      simp only [LooseText.points, ofPoints, hvalid, if_true, List.map_map, hofNat, List.map_id,
        String.ofList_toList]
  | broken points =>
    simp only [isProper, Bool.and_eq_true, List.all_eq_true, decide_eq_true_eq,
      Bool.not_eq_true'] at h
    obtain ⟨⟨h1, h2⟩, h3⟩ := h
    refine ⟨h2, h1, ?_⟩
    simp only [LooseText.points, ofPoints, h3, Bool.false_eq_true, if_false]

namespace Value

mutual

/-- A value of whole numbers with not too many digits, of proper texts and of tables with different
names. -/
def isExact : Value → Bool
  | .null | .bool _ => true
  | .int n => Text.isShort n
  | .real _ | .moment _ => false
  | .text t => t.isProper
  | .list items => areExact items
  | .table fields => decide (fields.map Prod.fst).Nodup && haveExact fields

/-- All items are exact. -/
def areExact : List Value → Bool
  | [] => true
  | item :: items => isExact item && areExact items

/-- All names are proper, and all their values exact. -/
def haveExact : List (LooseText × Value) → Bool
  | [] => true
  | (name, value) :: fields => name.isProper && isExact value && haveExact fields

end

mutual

/-- Two values are the same, where tables have the same values for the same names in any order. -/
def same : Value → Value → Bool
  | .null, .null => true
  | .bool a, .bool b => a == b
  | .int m, .int n => m == n
  | .real s, .real t => s == t
  | .moment s, .moment t => s == t
  | .text s, .text t => s == t
  | .list items, .list others => sameItems items others
  | .table fields, .table others => fields.length == others.length && sameFields fields others
  | _, _ => false

/-- The items of two lists are the same one by one. -/
def sameItems : List Value → List Value → Bool
  | [], [] => true
  | item :: items, other :: others => same item other && sameItems items others
  | _, _ => false

/-- The fields have the same values in another table. -/
def sameFields : List (LooseText × Value) → List (LooseText × Value) → Bool
  | [], _ => true
  | (name, value) :: fields, others =>
    (match field? others name with
      | some other => same value other
      | none => false) && sameFields fields others

end

end Value

namespace Json

open Text

/-! ## Strings -/

theorem hexValue?_hexDigit {n : Nat} (h : n < 16) : hexValue? (hexDigit n) = some n := by
  have key : ∀ n < 16, hexValue? (hexDigit n) = some n := by decide
  exact key n h

/-- The four digits of a number below 2^16 say which it is. -/
theorem unitsAfter_unitEscape {n : Nat} (h : n < 0x10000) (seen : List Nat) (rest : List Char) :
    unitsAfter seen (unitEscape n ++ rest) = unitsAfter (n :: seen) rest := by
  have hdigits : hexDigits 4 n = [hexDigit (n / 16 / 16 / 16 % 16), hexDigit (n / 16 / 16 % 16),
      hexDigit (n / 16 % 16), hexDigit (n % 16)] := rfl
  have hunit : unit? (hexDigit (n / 16 / 16 / 16 % 16)) (hexDigit (n / 16 / 16 % 16))
      (hexDigit (n / 16 % 16)) (hexDigit (n % 16)) = some n := by
    simp only [unit?, hexValue?_hexDigit (Nat.mod_lt _ (by decide : 0 < 16)), Option.bind_eq_bind,
      Option.bind_some, Option.some.injEq]
    omega
  simp only [unitEscape, hdigits, List.cons_append, List.nil_append, unitsAfter, hunit,
    Option.bind_eq_bind, Option.bind_some]

/-- The UTF-16 units of a code point. -/
def units (n : Nat) : List Nat :=
  if n ≤ 0xffff then [n] else [0xd800 + (n - 0x10000) / 0x400, 0xdc00 + (n - 0x10000) % 0x400]

/-- A character other than quote and backslash stands for itself, unless it is a control
character. -/
theorem unitsAfter_cons {c : Char} (hq : c ≠ '"') (hb : c ≠ '\\') (seen : List Nat)
    (rest : List Char) : unitsAfter seen (c :: rest) =
      if c.toNat < 0x20 then none else unitsAfter (c.toNat :: seen) rest := by
  rw [unitsAfter.eq_5]
  · exact hq
  · intro a b d e rest' h
    exact absurd h hb
  · intro d rest' h
    exact absurd h hb

/-- A code point is read as its units. -/
theorem unitsAfter_spelling {n : Nat} (h : n < 0x110000) (seen : List Nat) (rest : List Char) :
    unitsAfter seen (spelling n ++ rest) = unitsAfter ((units n).reverse ++ seen) rest := by
  unfold spelling
  split
  · next e he =>
    have hmem := List.mem_of_find?_eq_some he
    have hn : e.2 = n := by simpa using List.find?_some he
    subst hn
    simp only [shortEscapes, List.mem_cons, List.not_mem_nil, or_false] at hmem
    rcases hmem with rfl | rfl | rfl | rfl | rfl | rfl | rfl <;> rfl
  · next he =>
    split
    · next hn =>
      have htoNat : (Char.ofNat n).toNat = n := LooseText.toNat_ofNat (.inl (by omega))
      have hne : ∀ e ∈ shortEscapes, n ≠ e.2 := fun e hmem heq =>
        List.find?_eq_none.mp he e hmem (by simpa using heq.symm)
      have hquote : Char.ofNat n ≠ '"' := fun hc =>
        hne ('"', 0x22) (by decide) (by rw [← htoNat, hc]; rfl)
      have hslash : Char.ofNat n ≠ '\\' := fun hc =>
        hne ('\\', 0x5c) (by decide) (by rw [← htoNat, hc]; rfl)
      rw [List.cons_append, List.nil_append, unitsAfter_cons hquote hslash, htoNat,
        if_neg (by omega), units, if_pos (by omega)]
      rfl
    · unfold pointEscape units
      split
      · rw [unitsAfter_unitEscape (by omega)]
        rfl
      · rw [List.append_assoc, unitsAfter_unitEscape (by omega), unitsAfter_unitEscape (by omega)]
        rfl

/-- The code points of a string are read as their units. -/
theorem unitsAfter_spellings {points : List Nat} (h : ∀ n ∈ points, n < 0x110000) (seen : List Nat)
    (rest : List Char) : unitsAfter seen (points.flatMap spelling ++ '"' :: rest) =
      some (seen.reverse ++ points.flatMap units, rest) := by
  induction points generalizing seen with
  | nil => simp [unitsAfter]
  | cons n points ih =>
    rw [List.flatMap_cons, List.flatMap_cons, List.append_assoc,
      unitsAfter_spelling (h n List.mem_cons_self),
      ih fun m hm => h m (List.mem_cons_of_mem n hm)]
    simp

theorem joinAfter_single (seen : List Nat) (n : Nat) :
    joinAfter seen [n] = seen.reverse ++ [n] := by
  simp [joinAfter, List.reverseAux_eq]

/-- Two surrogates are joined, and nothing else is. -/
theorem joinAfter_cons (seen : List Nat) (h l : Nat) (rest : List Nat) :
    joinAfter seen (h :: l :: rest) =
      if isHigh h && isLow l then
        joinAfter ((0x10000 + (h - 0xd800) * 0x400 + (l - 0xdc00)) :: seen) rest
      else joinAfter (h :: seen) (l :: rest) := by
  rw [joinAfter]

/-- The first unit of a code point is of the second kind only if it is the code point. -/
theorem exists_units {n : Nat} (h : n < 0x110000) :
    ∃ l rest, units n = l :: rest ∧ (isLow l = true → l = n) := by
  unfold units
  split
  · exact ⟨n, [], rfl, fun _ => rfl⟩
  · refine ⟨_, _, rfl, fun hl => ?_⟩
    simp only [isLow, Bool.and_eq_true, decide_eq_true_eq] at hl
    omega

theorem joinAfter_units {points : List Nat} (hpoints : ∀ n ∈ points, n < 0x110000)
    (hpairs : LooseText.isUnpaired points = true) (seen : List Nat) :
    joinAfter seen (points.flatMap units) = seen.reverse ++ points := by
  induction points generalizing seen with
  | nil => simp [joinAfter, List.reverseAux_eq]
  | cons n points ih =>
    have hn := hpoints n List.mem_cons_self
    have hrest : ∀ m ∈ points, m < 0x110000 := fun m hm => hpoints m (List.mem_cons_of_mem n hm)
    have hunpaired : LooseText.isUnpaired points = true := by
      cases points with
      | nil => rfl
      | cons m points => exact (Bool.and_eq_true_iff.mp hpairs).2
    have ih := ih hrest hunpaired
    rw [List.flatMap_cons]
    by_cases hplane : n ≤ 0xffff
    · have hunits : units n = [n] := if_pos hplane
      rw [hunits, List.singleton_append]
      cases points with
      | nil => simpa using joinAfter_single seen n
      | cons m points =>
        -- The next unit is the next code point or no second surrogate, so `n` stays alone.
        obtain ⟨l, more, hm, hl⟩ := exists_units (hrest m List.mem_cons_self)
        have halone : (isHigh n && isLow l) = false := by
          cases hlow : isLow l with
          | false => exact Bool.and_false _
          | true =>
            rw [← hlow, hl hlow]
            exact (Bool.not_eq_true' _).mp (Bool.and_eq_true_iff.mp hpairs).1
        have ih := ih (n :: seen)
        rw [List.flatMap_cons, hm, List.cons_append] at ih ⊢
        rw [joinAfter_cons, halone, if_neg Bool.false_ne_true, ih, List.reverse_cons,
          List.append_assoc, List.singleton_append]
    · have hunits : units n = [0xd800 + (n - 0x10000) / 0x400, 0xdc00 + (n - 0x10000) % 0x400] :=
        if_neg hplane
      have hhigh : isHigh (0xd800 + (n - 0x10000) / 0x400) = true := by
        simp only [isHigh, Bool.and_eq_true, decide_eq_true_eq]
        omega
      have hlow : isLow (0xdc00 + (n - 0x10000) % 0x400) = true := by
        simp only [isLow, Bool.and_eq_true, decide_eq_true_eq]
        omega
      have hn : 0x10000 + (0xd800 + (n - 0x10000) / 0x400 - 0xd800) * 0x400 +
          (0xdc00 + (n - 0x10000) % 0x400 - 0xdc00) = n := by omega
      rw [hunits, List.cons_append, List.cons_append, List.nil_append, joinAfter_cons, hhigh, hlow,
        Bool.and_self, if_pos rfl, hn, ih, List.reverse_cons, List.append_assoc,
        List.singleton_append]

/-- **Units are put together to the code points that they come from.** -/
theorem join_units {points : List Nat} (hpoints : ∀ n ∈ points, n < 0x110000)
    (hpairs : LooseText.isUnpaired points = true) : join (points.flatMap units) = points :=
  joinAfter_units hpoints hpairs []

/-- **A proper string is read back.** -/
theorem string?_spellings {t : LooseText} (h : t.isProper = true) (rest : List Char) :
    string? (t.points.flatMap spelling ++ '"' :: rest) = some (t, rest) := by
  obtain ⟨h1, h2, h3⟩ := LooseText.isProper_spec h
  rw [string?, unitsAfter_spellings h1, List.reverse_nil, List.nil_append, Option.map_some,
    join_units h1 h2, h3]

/-! ## Values -/

theorem skipSpace_cons {c : Char} (h : isSpace c = false) (text : List Char) :
    skipSpace (c :: text) = c :: text := by
  simp [skipSpace, h]

theorem skipSpace_space (text : List Char) : skipSpace (' ' :: text) = skipSpace text := rfl

section Brackets

variable {α : Type} {close : Char} (found : α)
  (next : List Char → Except Refusal (α × List Char))

theorem inBrackets_cons {c : Char} (h : isSpace c = false) (hne : c ≠ close) (rest : List Char) :
    inBrackets close found next (c :: rest) = next (c :: rest) := by
  simp only [inBrackets, skipSpace_cons h, if_neg hne]

theorem afterItem_close (h : isSpace close = false) (rest : List Char) :
    afterItem close found next (close :: rest) = .ok (found, rest) := by
  simp only [afterItem, skipSpace_cons h, if_true]

theorem afterItem_comma (h : close ≠ ',') (rest : List Char) :
    afterItem close found next (',' :: rest) = next (skipSpace rest) := by
  have hcomma : isSpace ',' = false := rfl
  simp only [afterItem, skipSpace_cons hcomma, if_neg (Ne.symm h), if_true]

end Brackets

/-- What may follow a value that is written inside another one, or at the end. -/
def IsAfter (rest : List Char) : Prop :=
  ∀ c ∈ rest.head?, c = ',' ∨ c = ']' ∨ c = '\x7d'

theorem IsAfter.endsWord {rest : List Char} (h : IsAfter rest) : EndsWord rest := by
  intro c hc
  rcases h c hc with rfl | rfl | rfl <;> rfl

/-- What is written begins with no space and no closing bracket. -/
theorem exists_spell {v : Value} (h : v.isExact = true) :
    ∃ c text, spell v = c :: text ∧ isSpace c = false ∧ c ≠ ']' := by
  have hdigit : ∀ {c : Char}, isAsciiDigit c = true → isSpace c = false ∧ c ≠ ']' := by
    intro c hc
    constructor
    · by_contra hspace
      simp only [isSpace, Bool.not_eq_false, Bool.or_eq_true, beq_iff_eq] at hspace
      rcases hspace with ((rfl | rfl) | rfl) | rfl <;> cases hc
    · rintro rfl
      cases hc
  cases v with
  | null => exact ⟨_, _, rfl, rfl, by decide⟩
  | bool b => cases b <;> exact ⟨_, _, rfl, rfl, by decide⟩
  | int n =>
    cases n with
    | ofNat n =>
      obtain ⟨c, digits, hc, h⟩ := exists_digit n
      exact ⟨c, digits, hc, hdigit h⟩
    | negSucc n => exact ⟨_, _, rfl, rfl, by decide⟩
  | real s => cases h
  | moment s => cases h
  | text t => exact ⟨_, _, rfl, rfl, by decide⟩
  | list items => cases items <;> exact ⟨_, _, rfl, rfl, by decide⟩
  | table fields => cases fields <;> exact ⟨_, _, rfl, rfl, by decide⟩

theorem isAfter_spellItems (items : List Value) (rest : List Char) :
    IsAfter (spellItems items ++ rest) := by
  cases items <;> simp [IsAfter, spellItems]

theorem isAfter_spellFields (fields : List (LooseText × Value)) (rest : List Char) :
    IsAfter (spellFields fields ++ rest) := by
  cases fields <;> simp [IsAfter, spellFields]

/-- A field with a new name comes after all others. -/
theorem setField_of_not_mem {fields : List (LooseText × Value)} {name : LooseText}
    (h : name ∉ fields.map Prod.fst) (value : Value) :
    Value.setField fields name value = fields ++ [(name, value)] := by
  induction fields with
  | nil => rfl
  | cons f rest ih =>
    rw [List.map_cons, List.mem_cons, not_or] at h
    have hne : (f.1 == name) = false := beq_eq_false_iff_ne.mpr (Ne.symm h.1)
    rw [Value.setField, hne, ih h.2]
    rfl

mutual

/-- **An exact value is read back**, with enough room for the values in it. -/
theorem valueWithin_spell {v : Value} (h : v.isExact = true) (bound : Nat) {rest : List Char}
    (hb : (spell v).length ≤ bound) (hr : IsAfter rest) :
    valueWithin bound (spell v ++ rest) = .ok (v, rest) := by
  obtain ⟨c, text, hc, -⟩ := exists_spell h
  cases bound with
  | zero =>
    rw [hc] at hb
    cases hb
  | succ bound =>
  match v with
  | .null => rfl
  | .bool true => rfl
  | .bool false => rfl
  | .int n =>
    have hplain : plain (spellInteger n ++ rest) = .ok (.int n, rest) := by
      rw [plain_append hr.endsWord, plain_spellInteger h]
      rfl
    rw [spell] at hc ⊢
    rw [hc, List.cons_append] at hplain ⊢
    rw [valueWithin_inner (isInner_spellInteger (hc ▸ List.mem_cons_self)), hplain]
  | .text t =>
    have hstring := string?_spellings h rest
    rw [spell, writeString, List.cons_append, List.append_assoc]
    simp only [valueWithin, List.singleton_append, hstring, orMalformed, Except.map]
  | .list [] => rfl
  | .list (item :: items) =>
    rw [Value.isExact, Value.areExact, Bool.and_eq_true] at h
    rw [spell, List.length_cons] at hb
    have hitems := itemsWithin_spell h.1 h.2 bound rest (Nat.le_of_succ_le_succ hb)
    obtain ⟨d, more, hd, hspace, hne⟩ := exists_spell h.1
    rw [spell, List.cons_append, List.append_assoc]
    rw [hd, List.cons_append] at hitems ⊢
    rw [valueWithin, inBrackets_cons _ _ hspace hne, hitems]
    rfl
  | .table [] => rfl
  | .table ((name, value) :: fields) =>
    simp only [Value.isExact, Value.haveExact, Bool.and_eq_true, decide_eq_true_eq] at h
    obtain ⟨hd, ⟨hname, hvalue⟩, hfields⟩ := h
    rw [spell, List.length_cons] at hb
    have hread := fieldsWithin_spell hname hvalue hfields [] hd bound rest
      (Nat.le_of_succ_le_succ hb)
    rw [spell, List.cons_append, List.append_assoc, List.cons_append, List.cons_append,
      List.append_assoc]
    rw [writeString, List.cons_append] at hread ⊢
    rw [valueWithin, inBrackets_cons _ _ rfl (by decide), hread]
    rfl
termination_by bound

theorem itemsWithin_spell {item : Value} {items : List Value}
    (h : item.isExact = true) (hs : Value.areExact items = true) (bound : Nat) (rest : List Char)
    (hb : (spell item ++ spellItems items).length ≤ bound) :
    itemsWithin bound (spell item ++ (spellItems items ++ rest)) = .ok (item :: items, rest) := by
  rw [List.length_append] at hb
  cases bound with
  | zero =>
    obtain ⟨c, text, hc, -⟩ := exists_spell h
    rw [hc, List.length_cons] at hb
    omega
  | succ bound =>
  match items with
  | [] =>
    rw [spellItems, List.length_singleton] at hb
    have hread := valueWithin_spell h bound (by omega) (isAfter_spellItems [] rest)
    rw [spellItems, List.singleton_append] at hread ⊢
    simp only [itemsWithin, hread, bind, Except.bind]
    exact afterItem_close _ _ rfl rest
  | next :: items =>
    rw [Value.areExact, Bool.and_eq_true] at hs
    rw [spellItems, List.length_cons, List.length_cons] at hb
    have hread := valueWithin_spell h bound (by omega)
      (isAfter_spellItems (next :: items) rest)
    have hitems := itemsWithin_spell hs.1 hs.2 bound rest (by omega)
    obtain ⟨c, text, hc, hspace, -⟩ := exists_spell hs.1
    rw [spellItems, List.cons_append, List.cons_append, List.append_assoc] at hread ⊢
    rw [hc, List.cons_append] at hread hitems ⊢
    simp only [itemsWithin, hread, bind, Except.bind]
    rw [afterItem_comma _ _ (by decide), skipSpace_space, skipSpace_cons hspace, hitems]
    rfl
termination_by bound

theorem fieldsWithin_spell {name : LooseText} {value : Value} {fields : List (LooseText × Value)}
    (hname : name.isProper = true) (h : value.isExact = true) (hs : Value.haveExact fields = true)
    (seen : List (LooseText × Value))
    (hd : ((seen ++ (name, value) :: fields).map Prod.fst).Nodup) (bound : Nat) (rest : List Char)
    (hb : (writeString name ++ ':' :: ' ' :: (spell value ++ spellFields fields)).length ≤ bound) :
    fieldsWithin bound seen (writeString name ++ ':' :: ' ' :: (spell value ++
      (spellFields fields ++ rest))) = .ok (seen ++ (name, value) :: fields, rest) := by
  rw [List.length_append, List.length_cons, List.length_cons, List.length_append] at hb
  cases bound with
  | zero => omega
  | succ bound =>
  have hstring := string?_spellings hname
    (':' :: ' ' :: (spell value ++ (spellFields fields ++ rest)))
  have hnew : name ∉ seen.map Prod.fst := by
    rw [List.map_append, List.nodup_append] at hd
    exact fun hmem => hd.2.2 _ hmem _ List.mem_cons_self rfl
  have hread := valueWithin_spell h bound (by omega) (isAfter_spellFields fields rest)
  obtain ⟨c, text, hc, hspace, -⟩ := exists_spell h
  rw [hc, List.cons_append] at hread hstring ⊢
  rw [writeString, List.cons_append, List.append_assoc, List.singleton_append]
  simp only [fieldsWithin, hstring, orMalformed, bind, Except.bind,
    skipSpace_cons (show isSpace ':' = false from rfl), skipSpace_space, skipSpace_cons hspace,
    hread, setField_of_not_mem hnew]
  match fields with
  | [] =>
    rw [spellFields, List.singleton_append]
    exact afterItem_close _ _ rfl rest
  | (next, other) :: fields =>
    simp only [Value.haveExact, Bool.and_eq_true] at hs
    rw [spellFields, List.length_cons, List.length_cons] at hb
    have hfields := fieldsWithin_spell hs.1.1 hs.1.2 hs.2 (seen ++ [(name, value)])
      (by rwa [List.append_assoc]) bound rest (by omega)
    rw [spellFields, List.cons_append, List.cons_append, List.append_assoc, List.cons_append,
      List.cons_append, List.append_assoc, afterItem_comma _ _ (by decide), skipSpace_space]
    rw [writeString, List.cons_append] at hfields ⊢
    rw [skipSpace_cons (show isSpace '"' = false from rfl), hfields, List.append_assoc,
      List.singleton_append]
termination_by bound

end

/-- **What is written is read back.** -/
theorem read_spell {v : Value} (h : v.isExact = true) : read (spell v) = .ok v := by
  obtain ⟨c, text, hc, hspace, -⟩ := exists_spell h
  have hread := valueWithin_spell h (2 * (spell v).length + 1) (by omega)
    (show IsAfter [] by simp [IsAfter])
  rw [List.append_nil, hc] at hread
  rw [read, hc, skipSpace_cons hspace, hread]
  rfl

/-! ## The order of fields -/

theorem insertField_perm (f : LooseText × Value) (fields : List (LooseText × Value)) :
    (insertField f fields).Perm (f :: fields) := by
  induction fields with
  | nil => exact .refl _
  | cons g rest ih =>
    unfold insertField
    split
    · exact (ih.cons g).trans (.swap f g rest)
    · exact .refl _

/-- A field that is put into its place is found by its name, and so are all others. -/
theorem field?_insertField (f : LooseText × Value) (fields : List (LooseText × Value))
    (name : LooseText) : Value.field? (insertField f fields) name =
      if f.1 = name then some f.2 else Value.field? fields name := by
  induction fields with
  | nil =>
    by_cases h : f.1 = name <;> simp [insertField, Value.field?, h]
  | cons g rest ih =>
    unfold insertField
    split
    · next hlt =>
      unfold Value.field? at ih ⊢
      by_cases hg : g.1 = name
      · have hf : f.1 ≠ name := by
          rintro rfl
          rw [hg] at hlt
          exact List.lt_irrefl _ hlt
        simp [hg, hf]
      · have hne : (g.1 == name) = false := beq_eq_false_iff_ne.mpr hg
        rw [List.find?_cons, hne, List.find?_cons, hne]
        exact ih
    · by_cases h : f.1 = name <;> simp [Value.field?, h]

theorem field?_orderedFields {fields : List (LooseText × Value)}
    (hd : (fields.map Prod.fst).Nodup) {f : LooseText × Value} (hf : f ∈ fields) :
    Value.field? (orderedFields fields) f.1 = some (ordered f.2) := by
  induction fields with
  | nil => cases hf
  | cons g rest ih =>
    rw [List.map_cons, List.nodup_cons] at hd
    rw [orderedFields, field?_insertField]
    rcases List.mem_cons.mp hf with rfl | hf
    · rw [if_pos rfl]
    · have hne : g.1 ≠ f.1 := fun heq => hd.1 (heq ▸ List.mem_map_of_mem hf)
      rw [if_neg hne, ih hd.2 hf]

theorem names_orderedFields (fields : List (LooseText × Value)) :
    ((orderedFields fields).map Prod.fst).Perm (fields.map Prod.fst) := by
  induction fields with
  | nil => exact .refl _
  | cons f rest ih =>
    rw [orderedFields, List.map_cons]
    exact ((insertField_perm _ _).map Prod.fst).trans (ih.cons f.1)

theorem haveExact_eq (fields : List (LooseText × Value)) :
    Value.haveExact fields = fields.all fun f => f.1.isProper && f.2.isExact := by
  induction fields with
  | nil => rfl
  | cons f rest ih => rw [Value.haveExact, List.all_cons, ih]

mutual

/-- A value in order is as exact as before. -/
theorem isExact_ordered {v : Value} (h : v.isExact = true) : (ordered v).isExact = true := by
  match v with
  | .null | .bool _ | .int _ | .text _ => simpa only [ordered] using h
  | .list items =>
    rw [Value.isExact] at h
    exact areExact_ordered h
  | .table fields =>
    simp only [Value.isExact, Bool.and_eq_true, decide_eq_true_eq] at h
    simp only [ordered, Value.isExact, Bool.and_eq_true, decide_eq_true_eq]
    exact ⟨(names_orderedFields fields).nodup_iff.mpr h.1, haveExact_ordered h.2⟩

theorem areExact_ordered {items : List Value} (h : Value.areExact items = true) :
    Value.areExact (orderedItems items) = true := by
  match items with
  | [] => rfl
  | item :: items =>
    simp only [Value.areExact, Bool.and_eq_true] at h
    simp only [orderedItems, Value.areExact, Bool.and_eq_true]
    exact ⟨isExact_ordered h.1, areExact_ordered h.2⟩

theorem haveExact_ordered {fields : List (LooseText × Value)} (h : Value.haveExact fields = true) :
    Value.haveExact (orderedFields fields) = true := by
  match fields with
  | [] => rfl
  | (name, value) :: fields =>
    simp only [Value.haveExact, Bool.and_eq_true] at h
    have hrest := haveExact_ordered h.2
    rw [haveExact_eq] at hrest ⊢
    rw [orderedFields, (insertField_perm _ _).all_eq, List.all_cons, hrest, h.1.1,
      isExact_ordered h.1.2]
    rfl

end

mutual

/-- **The order of fields does not matter.** -/
theorem same_ordered {v : Value} (h : v.isExact = true) : v.same (ordered v) = true := by
  match v with
  | .null => rfl
  | .bool _ | .int _ | .text _ => simp [ordered, Value.same]
  | .list items =>
    rw [Value.isExact] at h
    exact sameItems_ordered h
  | .table fields =>
    simp only [Value.isExact, Bool.and_eq_true, decide_eq_true_eq] at h
    have hlength := (names_orderedFields fields).length_eq
    simp only [List.length_map] at hlength
    simp only [ordered, Value.same, Bool.and_eq_true, beq_iff_eq]
    exact ⟨hlength.symm, sameFields_ordered h.2 fun f hf => field?_orderedFields h.1 hf⟩

theorem sameItems_ordered {items : List Value} (h : Value.areExact items = true) :
    Value.sameItems items (orderedItems items) = true := by
  match items with
  | [] => rfl
  | item :: items =>
    simp only [Value.areExact, Bool.and_eq_true] at h
    simp only [orderedItems, Value.sameItems, Bool.and_eq_true]
    exact ⟨same_ordered h.1, sameItems_ordered h.2⟩

theorem sameFields_ordered {fields others : List (LooseText × Value)}
    (h : Value.haveExact fields = true)
    (hothers : ∀ f ∈ fields, Value.field? others f.1 = some (ordered f.2)) :
    Value.sameFields fields others = true := by
  match fields with
  | [] => rfl
  | (name, value) :: fields =>
    simp only [Value.haveExact, Bool.and_eq_true] at h
    have hrest := sameFields_ordered h.2 fun f hf => hothers f (List.mem_cons_of_mem _ hf)
    have hfirst := hothers (name, value) List.mem_cons_self
    simp only [Value.sameFields, hfirst, same_ordered h.1.2, hrest, Bool.and_self]

end

/-! ## What can be written -/

theorem haveShort_eq (fields : List (LooseText × Value)) :
    Value.haveShort fields = fields.all fun f => f.2.isShort := by
  induction fields with
  | nil => rfl
  | cons f rest ih => rw [Value.haveShort, List.all_cons, ih]

mutual

/-- The numbers of a value are the same in any order of fields. -/
theorem isShort_ordered (v : Value) : (ordered v).isShort = v.isShort := by
  match v with
  | .null | .bool _ | .int _ | .real _ | .moment _ | .text _ => rfl
  | .list items =>
    rw [ordered, Value.isShort, Value.isShort]
    exact areShort_ordered items
  | .table fields =>
    rw [ordered, Value.isShort, Value.isShort]
    exact haveShort_ordered fields

theorem areShort_ordered (items : List Value) :
    Value.areShort (orderedItems items) = Value.areShort items := by
  match items with
  | [] => rfl
  | item :: items =>
    rw [orderedItems, Value.areShort, Value.areShort, isShort_ordered item, areShort_ordered items]

theorem haveShort_ordered (fields : List (LooseText × Value)) :
    Value.haveShort (orderedFields fields) = Value.haveShort fields := by
  match fields with
  | [] => rfl
  | (name, value) :: fields =>
    have hrest := haveShort_ordered fields
    rw [haveShort_eq] at hrest ⊢
    rw [orderedFields, (insertField_perm _ _).all_eq, List.all_cons, hrest, isShort_ordered value,
      Value.haveShort]

end

mutual

theorem isShort_of_isExact {v : Value} (h : v.isExact = true) : v.isShort = true := by
  match v with
  | .null | .bool _ | .text _ => rfl
  | .int _ => exact h
  | .list items =>
    rw [Value.isExact] at h
    exact areShort_of_areExact h
  | .table fields =>
    rw [Value.isExact, Bool.and_eq_true] at h
    exact haveShort_of_haveExact h.2

theorem areShort_of_areExact {items : List Value} (h : Value.areExact items = true) :
    Value.areShort items = true := by
  match items with
  | [] => rfl
  | item :: items =>
    rw [Value.areExact, Bool.and_eq_true] at h
    rw [Value.areShort, isShort_of_isExact h.1, areShort_of_areExact h.2]
    rfl

theorem haveShort_of_haveExact {fields : List (LooseText × Value)}
    (h : Value.haveExact fields = true) : Value.haveShort fields = true := by
  match fields with
  | [] => rfl
  | (name, value) :: fields =>
    simp only [Value.haveExact, Bool.and_eq_true] at h
    rw [Value.haveShort, isShort_of_isExact h.1.2, haveShort_of_haveExact h.2]
    rfl

end

/-! ## The characters of what is written -/

/-- Printable ASCII. -/
def isPlainChar (c : Char) : Bool :=
  0x20 ≤ c.toNat && c.toNat < 0x7f

theorem isPlainChar_hexDigits {width n : Nat} {c : Char} (h : c ∈ hexDigits width n) :
    isPlainChar c = true := by
  have key : ∀ d < 16, isPlainChar (hexDigit d) = true := by decide
  induction width generalizing n with
  | zero => cases h
  | succ width ih =>
    rcases List.mem_append.mp h with h | h
    · exact ih h
    · rw [List.mem_singleton.mp h]
      exact key _ (Nat.mod_lt n (by decide))

theorem isPlainChar_unitEscape {n : Nat} {c : Char} (h : c ∈ unitEscape n) :
    isPlainChar c = true := by
  rcases List.mem_cons.mp h with rfl | h
  · rfl
  rcases List.mem_cons.mp h with rfl | h
  · rfl
  · exact isPlainChar_hexDigits h

theorem isPlainChar_spelling {n : Nat} {c : Char} (h : c ∈ spelling n) : isPlainChar c = true := by
  unfold spelling at h
  split at h
  · next e he =>
    have hmem := List.mem_of_find?_eq_some he
    have key : ∀ e ∈ shortEscapes, isPlainChar e.1 = true := by decide
    rcases List.mem_cons.mp h with rfl | h
    · rfl
    · rw [List.mem_singleton.mp h]
      exact key e hmem
  · split at h
    · next hn =>
      rw [List.mem_singleton.mp h, isPlainChar, LooseText.toNat_ofNat (.inl (by omega))]
      simpa using hn
    · unfold pointEscape at h
      split at h
      · exact isPlainChar_unitEscape h
      · rcases List.mem_append.mp h with h | h <;> exact isPlainChar_unitEscape h

theorem isPlainChar_writeString {t : LooseText} {c : Char} (h : c ∈ writeString t) :
    isPlainChar c = true := by
  rcases List.mem_cons.mp h with rfl | h
  · rfl
  rcases List.mem_append.mp h with h | h
  · obtain ⟨n, -, h⟩ := List.mem_flatMap.mp h
    exact isPlainChar_spelling h
  · rw [List.mem_singleton.mp h]
    rfl

theorem isPlainChar_spellInteger {n : Int} {c : Char} (h : c ∈ spellInteger n) :
    isPlainChar c = true := by
  have hdigit : ∀ {m : Nat}, c ∈ spellNatural m → isPlainChar c = true := by
    intro m hm
    have := isAsciiDigit_spellNatural hm
    simp only [isAsciiDigit, Bool.and_eq_true, decide_eq_true_eq] at this
    simp only [isPlainChar, Bool.and_eq_true, decide_eq_true_eq]
    omega
  cases n with
  | ofNat n => exact hdigit h
  | negSucc n =>
    rcases List.mem_cons.mp h with rfl | h
    · rfl
    · exact hdigit h

mutual

/-- **What is written is printable ASCII.** -/
theorem isPlainChar_spell {v : Value} (h : v.isExact = true) :
    ∀ c ∈ spell v, isPlainChar c = true := by
  match v with
  | .null | .bool true | .bool false | .list [] | .table [] => exact List.all_eq_true.mp rfl
  | .int n => exact fun c hc => isPlainChar_spellInteger hc
  | .text t => exact fun c hc => isPlainChar_writeString hc
  | .list (item :: items) =>
    rw [Value.isExact, Value.areExact, Bool.and_eq_true] at h
    rw [spell, List.forall_mem_cons, List.forall_mem_append]
    exact ⟨rfl, isPlainChar_spell h.1, isPlainChar_spellItems h.2⟩
  | .table ((name, value) :: fields) =>
    simp only [Value.isExact, Value.haveExact, Bool.and_eq_true] at h
    rw [spell, List.forall_mem_cons, List.forall_mem_append, List.forall_mem_cons,
      List.forall_mem_cons, List.forall_mem_append]
    exact ⟨rfl, fun c hc => isPlainChar_writeString hc, rfl, rfl, isPlainChar_spell h.2.1.2,
      isPlainChar_spellFields h.2.2⟩

theorem isPlainChar_spellItems {items : List Value} (h : Value.areExact items = true) :
    ∀ c ∈ spellItems items, isPlainChar c = true := by
  match items with
  | [] => exact List.all_eq_true.mp rfl
  | item :: items =>
    rw [Value.areExact, Bool.and_eq_true] at h
    rw [spellItems, List.forall_mem_cons, List.forall_mem_cons, List.forall_mem_append]
    exact ⟨rfl, rfl, isPlainChar_spell h.1, isPlainChar_spellItems h.2⟩

theorem isPlainChar_spellFields {fields : List (LooseText × Value)}
    (h : Value.haveExact fields = true) : ∀ c ∈ spellFields fields, isPlainChar c = true := by
  match fields with
  | [] => exact List.all_eq_true.mp rfl
  | (name, value) :: fields =>
    simp only [Value.haveExact, Bool.and_eq_true] at h
    rw [spellFields, List.forall_mem_cons, List.forall_mem_cons, List.forall_mem_append,
      List.forall_mem_cons, List.forall_mem_cons, List.forall_mem_append]
    exact ⟨rfl, rfl, fun c hc => isPlainChar_writeString hc, rfl, rfl, isPlainChar_spell h.1.2,
      isPlainChar_spellFields h.2⟩

end

end Json

end MarkupIndent
