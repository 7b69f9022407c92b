import MarkupIndent.Proofs.GraphOrder

/-!
# Expected indentation is found

Over a graph whose entries descend, a chain goes from head to earlier head and ends, so every head
has an expected indentation, and the memo only ever holds what the chain would give.

* `Layout.Grounded`: a layout of the tokens of a text over an ordered graph.
* `link_spec`: a step leads to an earlier head.
* `resolve_ok`: resolving a head succeeds.
* `Resolves.eq`, `resolveFrom_resolves`: there is one answer, with a memo or without.
* `records_ok`: every checked line gets its record.
-/

namespace MarkupIndent.Margin

open Markup Text

/-- A layout of the tokens of a text, over a graph whose entries descend. -/
structure Layout.Grounded (l : Layout) (root : Nat) : Prop where
  tokens : Tokenized l.document.text l.document.text.length l.document.tokens
  graph : l.graph.Ordered l.document.tokens root

namespace Layout

variable {l : Layout} {root : Nat}

theorem Grounded.indexed (hl : l.Grounded root) : Indexed l.document.tokens :=
  indexed_of_tokenized hl.tokens

theorem Grounded.leadingText (hl : l.Grounded root) {i : Nat} {t : Token}
    (ht : l.document.tokens[i]? = some t) :
    l.leadingText t = .ok (lastLine (l.document.text.take t.start)) := by
  simp only [Layout.leadingText, leadingText?_eq (hl.tokens.token i t ht)]

theorem Grounded.actual (hl : l.Grounded root) {i : Nat} {t : Token}
    (ht : l.document.tokens[i]? = some t) :
    l.actual t = .ok (l.unit.measure (lastLine (l.document.text.take t.start))) := by
  simp only [Layout.actual, hl.leadingText ht, bind, Except.bind]

/-- The head of a significant token is a significant token at or before it. -/
theorem Grounded.headOf (hl : l.Grounded root) {i : Nat} {t : Token}
    (ht : l.document.tokens[i]? = some t) (hb : t.isBlank = false) :
    ∃ g h, l.graph.heads.headOf t = .ok h ∧ l.document.tokens[g]? = some h ∧
      Governs l.document.tokens.toList g i := by
  rw [hl.graph.heads]
  exact headOf_spec hl.indexed ht hb

theorem Grounded.token (hl : l.Grounded root) {i : Nat} {t : Token}
    (ht : l.document.tokens[i]? = some t) : l.graph.heads.token i = .ok t := by
  simp only [hl.graph.heads, Heads.token, Heads.ofTokens, ht]

/-- What the graph has for a token: nothing, or an entry with its base and the head of that. -/
theorem Grounded.entry (hl : l.Grounded root) {i : Nat} {t : Token}
    (ht : l.document.tokens[i]? = some t) :
    l.graph.entry t.index = .ok none ∨ ∃ e base g other,
      l.graph.entry t.index = .ok (some e) ∧ Hangs l.document.tokens i e.base e.kind e.weight ∧
      l.graph.heads.token e.base = .ok base ∧ l.document.tokens[e.base]? = some base ∧
      l.graph.heads.headOf base = .ok other ∧ l.document.tokens[g]? = some other ∧
      Governs l.document.tokens.toList g e.base := by
  have hi := (Array.getElem?_eq_some_iff.mp ht).1
  rw [← hl.graph.size] at hi
  rw [hl.indexed i t ht]
  unfold OffsetGraph.entry
  cases he : l.graph.entries[i]? with
  | none =>
    rw [Array.getElem?_eq_none_iff] at he
    omega
  | some entry =>
    cases entry with
    | none => exact .inl rfl
    | some e =>
      obtain ⟨-, hangs⟩ := hl.graph.entry i e he
      obtain ⟨base, hbase, hbb⟩ := hangs.onBase
      obtain ⟨g, other, h1, h2, h3⟩ := hl.headOf hbase hbb
      exact .inr ⟨e, base, g, other, rfl, hangs, hl.token hbase, hbase, h1, h2, h3⟩

/-- It is always decided whether the graph is in charge of a line. -/
theorem Grounded.isChecked (hl : l.Grounded root) {i : Nat} {t : Token}
    (ht : l.document.tokens[i]? = some t) : ∃ checked, l.isChecked t = .ok checked := by
  unfold Layout.isChecked
  split
  · exact ⟨true, rfl⟩
  · rcases hl.entry ht with h | ⟨e, base, g, other, h1, -, h2, -, h3, -⟩
    · exact ⟨false, by simp only [h, bind, Except.bind]⟩
    · simp only [h1, h2, h3, bind, Except.bind]
      split
      · exact ⟨false, rfl⟩
      · exact ⟨_, rfl⟩

theorem adjust_ok {e : OffsetEntry} (hk : ∀ label, e.kind ≠ .unknown label) (hp : e.kind ≠ .pinned)
    (base head : Token) (i : Indentation) : ∃ j, l.adjust e base head i = .ok j := by
  unfold Layout.adjust
  split
  · exact ⟨_, rfl⟩
  · exact ⟨_, rfl⟩
  · exact ⟨_, rfl⟩
  · next hrel hsame halign =>
    cases hkind : e.kind with
    | relative => exact absurd hkind hrel
    | same => exact absurd hkind hsame
    | align => exact absurd hkind halign
    | pinned => exact absurd hkind hp
    | unknown label => exact absurd hkind (hk label)

/-- **A step of a chain leads to an earlier head**, and its rule can be carried out. -/
theorem link_spec (hl : l.Grounded root) {i : Nat} {t : Token}
    (ht : l.document.tokens[i]? = some t) :
    ∃ k, l.link t = .ok k ∧ ∀ e base other, k = .hop e base other →
      (∃ g < i, l.document.tokens[g]? = some other ∧ other.isBlank = false) ∧
      ∀ x, ∃ y, l.adjust e base other x = .ok y := by
  unfold Layout.link
  rcases hl.entry ht with h | ⟨e, base, g, other, h1, hangs, h2, hbase, h3, h4, h5⟩
  · simp only [h, hl.actual ht, bind, Except.bind]
    exact ⟨_, rfl, by simp⟩
  · simp only [h1, bind, Except.bind]
    split
    · rw [hl.actual ht]
      exact ⟨_, rfl, by simp⟩
    · next hkind =>
      obtain ⟨checked, hchecked⟩ := hl.isChecked h4
      simp only [h2, h3, hchecked]
      have hadjust := adjust_ok (l := l) hangs.known hkind base other
      split
      · refine ⟨_, rfl, ?_⟩
        rintro _ _ _ ⟨⟩
        have := hangs.lt hkind
        have := h5.le
        exact ⟨⟨g, by omega, h4, h5.leads.significant h4⟩, hadjust⟩
      · rw [hl.actual h4]
        simp only
        obtain ⟨j, hj⟩ := hadjust (l.unit.measure (lastLine (l.document.text.take other.start)))
        rw [hj]
        exact ⟨_, rfl, by simp⟩

/-- **Every head is resolved**, whatever is known already, if only later heads wait for it. -/
theorem resolveFrom_ok (hl : l.Grounded root) {i : Nat} {t : Token}
    (ht : l.document.tokens[i]? = some t) (memo : Memo) (active : List Nat)
    (ha : ∀ a ∈ active, i < a) : ∃ r, l.resolveFrom memo active t = .ok r := by
  induction i using Nat.strong_induction_on generalizing t memo active with
  | h i ih =>
    have hi := hl.indexed i t ht
    unfold resolveFrom
    split
    · exact ⟨_, rfl⟩
    split
    · next hmem =>
      have := ha _ hmem
      omega
    split
    · exact ⟨_, rfl⟩
    · obtain ⟨k, hk, hhop⟩ := link_spec hl ht
      split
      · next fault hf =>
        rw [hk] at hf
        cases hf
      · exact ⟨_, rfl⟩
      · next e base other hf =>
        rw [hk] at hf
        obtain ⟨⟨g, hg, hother, -⟩, hadjust⟩ := hhop e base other (Except.ok.inj hf)
        have hactive : ∀ a ∈ active ++ [t.index], g < a := by
          intro a hm
          rcases List.mem_append.mp hm with hm | hm
          · have := ha a hm
            omega
          · rw [List.mem_singleton.mp hm]
            omega
        obtain ⟨⟨x, memo'⟩, hr⟩ := ih g hg hother memo _ hactive
        obtain ⟨y, hy⟩ := hadjust x
        exact ⟨_, by simp only [hr, hy, bind, Except.bind]; rfl⟩

theorem resolve_ok (hl : l.Grounded root) {i : Nat} {t : Token}
    (ht : l.document.tokens[i]? = some t) (memo : Memo) : ∃ r, l.resolve memo t = .ok r :=
  resolveFrom_ok hl ht memo [] (by simp)

/-- Every line that the graph is in charge of gets its record. -/
theorem recordsOf_ok (hl : l.Grounded root) {heads : List Token}
    (hh : ∀ t ∈ heads, ∃ i : Nat, l.document.tokens[i]? = some t) (memo : Memo) :
    ∃ records, l.recordsOf memo heads = .ok records := by
  induction heads generalizing memo with
  | nil => exact ⟨[], rfl⟩
  | cons t rest ih =>
    obtain ⟨i, ht⟩ := hh t List.mem_cons_self
    have ih := ih fun u hu => hh u (List.mem_cons_of_mem _ hu)
    obtain ⟨checked, hchecked⟩ := hl.isChecked ht
    obtain ⟨⟨x, memo'⟩, hx⟩ := resolve_ok hl ht memo
    obtain ⟨record, memo'', hrec⟩ : ∃ record memo'', l.record? memo t = .ok (record, memo'') := by
      simp only [record?, hchecked, hl.leadingText ht, hx, bind, Except.bind]
      split
      · split
        · exact ⟨_, _, rfl⟩
        · exact ⟨_, _, rfl⟩
      · exact ⟨_, _, rfl⟩
    obtain ⟨records, hrest⟩ := ih memo''
    exact ⟨record.toList ++ records, by simp only [recordsOf, hrec, hrest, bind, Except.bind]⟩

theorem records_ok (hl : l.Grounded root) : ∃ records, l.records = .ok records := by
  refine recordsOf_ok hl (fun t ht => ?_) []
  rw [hl.graph.heads, mem_lineHeads hl.indexed] at ht
  obtain ⟨i, hi, -⟩ := ht
  exact ⟨i, hi⟩

/-! ## One answer -/

/-- A head has one expected indentation. -/
theorem Resolves.eq {t : Token} {i j : Indentation} (hi : l.Resolves t i) (hj : l.Resolves t j) :
    i = j := by
  induction hi generalizing j with
  | root hr =>
    cases hj with
    | root => rfl
    | settled hne => exact absurd hr hne
    | hop hne => exact absurd hr hne
  | settled hne hk =>
    cases hj with
    | root hr => exact absurd hr hne
    | settled _ hk' =>
      rw [hk] at hk'
      cases hk'
      rfl
    | hop _ hk' =>
      rw [hk] at hk'
      cases hk'
  | hop hne hk _ ha ih =>
    cases hj with
    | root hr => exact absurd hr hne
    | settled _ hk' =>
      rw [hk] at hk'
      cases hk'
    | hop _ hk' hr' ha' =>
      rw [hk] at hk'
      cases hk'
      rw [ih hr', ha'] at ha
      exact (Except.ok.inj ha).symm

/-- What is known already is right. -/
def Known (l : Layout) (memo : Memo) : Prop :=
  ∀ (t : Token) (i : Indentation), l.document.tokens[t.index]? = some t →
    memo.lookup t.index = some i → l.Resolves t i

theorem known_nil : l.Known [] := by simp [Known]

theorem Known.cons {memo : Memo} (h : l.Known memo) {t : Token} {i : Indentation}
    (ht : l.document.tokens[t.index]? = some t) (hr : l.Resolves t i) :
    l.Known ((t.index, i) :: memo) := by
  intro u j hu hj
  rw [List.lookup_cons] at hj
  split at hj
  · next heq =>
    have heq : u.index = t.index := by simpa using heq
    rw [heq, ht] at hu
    cases hu
    cases hj
    exact hr
  · exact h u j hu hj

/-- **Following a chain with a memo gives the answer of the chain.** -/
theorem resolveFrom_resolves (hl : l.Grounded root) {memo memo' : Memo} {active : List Nat}
    {t : Token} {i : Indentation} (ht : l.document.tokens[t.index]? = some t) (hm : l.Known memo)
    (h : l.resolveFrom memo active t = .ok (i, memo')) : l.Resolves t i ∧ l.Known memo' := by
  fun_induction resolveFrom l memo active t generalizing i memo' with
  | case1 active t j hj =>
    cases h
    exact ⟨hm t _ ht hj, hm⟩
  | case2 => cases h
  | case3 active t _ _ hroot =>
    cases h
    exact ⟨.root hroot, hm.cons ht (.root hroot)⟩
  | case4 => cases h
  | case5 active t _ _ hroot j hk =>
    cases h
    exact ⟨.settled hroot hk, hm.cons ht (.settled hroot hk)⟩
  | case6 active t _ _ hroot e base other hk ih =>
    obtain ⟨⟨x, memo1⟩, hx, h⟩ := bind_eq_ok.mp h
    obtain ⟨y, hy, h⟩ := bind_eq_ok.mp h
    cases h
    obtain ⟨k, hk', hhop⟩ := link_spec hl ht
    rw [hk] at hk'
    obtain ⟨⟨g, -, hother, -⟩, -⟩ := hhop e base other (Except.ok.inj hk').symm
    rw [← hl.indexed g other hother] at hother
    obtain ⟨h1, h2⟩ := ih hother hx
    exact ⟨.hop hroot hk h1 hy, h2.cons ht (.hop hroot hk h1 hy)⟩

end Layout

end MarkupIndent.Margin
