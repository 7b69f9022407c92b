import Mathlib.Data.List.Pairwise
import MarkupIndent.Margin.Expected
import MarkupIndent.Proofs.Matched
import MarkupIndent.Proofs.Tiling

/-!
# Line heads and what governs them

One pass over the tokens finds the heads. Here they are told apart without the pass: a significant
token leads its line if every significant token before it has ended on an earlier line, and it is
governed by the last such token at or before it.

* `Leads`, `Governs`: which tokens are heads, and whose.
* `governs_governors`: the pass finds exactly these.
* `headOf_spec`: the head of a significant token of a document is there.
* `leads_matched`: sequences of tokens on the same lines have the same heads.
* `leadingText?_eq`: what stands before a token on its line.
* `head_margin`: before a head there are only blanks.
-/

namespace MarkupIndent.Margin

open Markup Text

/-! ## Heads without a pass -/

/-- The token of an index is significant, and every significant token before it has ended on an
earlier line. -/
def Leads (tokens : List Token) (i : Nat) : Prop :=
  ∃ t, tokens[i]? = some t ∧ t.isBlank = false ∧
    ∀ (j : Nat) (u : Token), j < i → tokens[j]? = some u → u.isBlank = false → u.endLine < t.line

/-- The last head at or before an index. -/
structure Governs (tokens : List Token) (h i : Nat) : Prop where
  leads : Leads tokens h
  le : h ≤ i
  last : ∀ j, h < j → j ≤ i → ¬ Leads tokens j

theorem leads_append {before after : List Token} {i : Nat} (hi : i < before.length) :
    Leads (before ++ after) i ↔ Leads before i := by
  have hget : ∀ j, j ≤ i → (before ++ after)[j]? = before[j]? := fun j hj =>
    List.getElem?_append_left (by omega)
  constructor
  · rintro ⟨t, ht, hb, h⟩
    exact ⟨t, hget i (Nat.le_refl i) ▸ ht, hb, fun j u hj hu => h j u hj (hget j (by omega) ▸ hu)⟩
  · rintro ⟨t, ht, hb, h⟩
    exact ⟨t, (hget i (Nat.le_refl i)).symm ▸ ht, hb,
      fun j u hj hu => h j u hj ((hget j (by omega)).symm ▸ hu)⟩

/-- What the pass knows after some tokens: the last head, and the last line that is reached. -/
structure Reached (before : List Token) (head : Option Nat) (reach : Nat) : Prop where
  le : ∀ u ∈ before, u.isBlank = false → u.endLine ≤ reach
  fresh : head = none → reach = 0 ∧ ∀ u ∈ before, u.isBlank = true
  attained : ∀ h, head = some h → ∃ u ∈ before, u.isBlank = false ∧ u.endLine = reach
  governs : ∀ h, head = some h → Leads before h ∧ ∀ j, h < j → ¬ Leads before j

theorem Leads.lt {tokens : List Token} {i : Nat} (h : Leads tokens i) : i < tokens.length := by
  obtain ⟨t, ht, -⟩ := h
  exact (List.getElem?_eq_some_iff.mp ht).1

theorem reached_blank {before : List Token} {head : Option Nat} {reach : Nat} {t : Token}
    (h : Reached before head reach) (ht : t.isBlank = true) :
    Reached (before ++ [t]) head reach where
  le := by
    intro u hu hb
    rcases List.mem_append.mp hu with hu | hu
    · exact h.le u hu hb
    · rw [List.mem_singleton.mp hu, ht] at hb
      cases hb
  fresh := by
    intro hn
    refine ⟨(h.fresh hn).1, fun u hu => ?_⟩
    rcases List.mem_append.mp hu with hu | hu
    · exact (h.fresh hn).2 u hu
    · rw [List.mem_singleton.mp hu, ht]
  attained := by
    intro i hi
    obtain ⟨u, hu, h1, h2⟩ := h.attained i hi
    exact ⟨u, List.mem_append_left _ hu, h1, h2⟩
  governs := by
    intro i hi
    obtain ⟨h1, h2⟩ := h.governs i hi
    refine ⟨(leads_append h1.lt).mpr h1, fun j hj hl => ?_⟩
    rcases Nat.lt_or_ge j before.length with hlt | hge
    · exact h2 j hj ((leads_append hlt).mp hl)
    · obtain ⟨u, hu, hb, -⟩ := hl
      have hlen := (List.getElem?_eq_some_iff.mp hu).1
      rw [List.length_append, List.length_singleton] at hlen
      obtain rfl : j = before.length := by omega
      rw [List.getElem?_concat_length] at hu
      rw [← Option.some.inj hu, ht] at hb
      cases hb

/-- The head that the pass gives to a significant token. -/
def nextHead (head : Option Nat) (reach : Nat) (t : Token) : Nat :=
  match head with
  | some h => if t.line > reach then t.index else h
  | none => t.index

/-- A significant token is a head or is governed by the head so far. -/
theorem reached_significant {before : List Token} {head : Option Nat} {reach : Nat} {t : Token}
    (h : Reached before head reach) (ht : t.isBlank = false) (hi : t.index = before.length) :
    Reached (before ++ [t]) (some (nextHead head reach t)) (max reach t.endLine) := by
  have hmem : t ∈ before ++ [t] := by simp
  have hle : ∀ u ∈ before ++ [t], u.isBlank = false → u.endLine ≤ max reach t.endLine := by
    intro u hu hb
    rcases List.mem_append.mp hu with hu | hu
    · have := h.le u hu hb
      omega
    · rw [List.mem_singleton.mp hu]
      omega
  have hlast : ∀ j, Leads (before ++ [t]) j → before.length ≤ j → j = before.length := by
    intro j hj hge
    have := hj.lt
    rw [List.length_append, List.length_singleton] at this
    omega
  have hlead : (∀ u ∈ before, u.isBlank = false → u.endLine < t.line) →
      Leads (before ++ [t]) before.length := by
    intro hall
    refine ⟨t, List.getElem?_concat_length, ht, fun j u hj hu => ?_⟩
    rw [List.getElem?_append_left hj] at hu
    exact hall u (List.mem_of_getElem? hu)
  have hnew : Leads (before ++ [t]) before.length → Leads (before ++ [t]) t.index ∧
      ∀ j, t.index < j → ¬ Leads (before ++ [t]) j := by
    intro hl
    rw [hi]
    refine ⟨hl, fun j hj hjl => ?_⟩
    have := hlast j hjl (by omega)
    omega
  cases head with
  | none =>
    obtain ⟨hzero, hblank⟩ := h.fresh rfl
    refine ⟨hle, by simp, fun _ _ => ⟨t, hmem, ht, by omega⟩, ?_⟩
    intro i hi'
    cases hi'
    apply hnew
    apply hlead
    intro u hu hb
    rw [hblank u hu] at hb
    cases hb
  | some g =>
    obtain ⟨u, hu, hub, hur⟩ := h.attained g rfl
    refine ⟨hle, by simp, fun _ _ => ?_, ?_⟩
    · rcases Nat.le_total reach t.endLine with hm | hm
      · exact ⟨t, hmem, ht, by omega⟩
      · exact ⟨u, List.mem_append_left _ hu, hub, by omega⟩
    · intro i hi'
      cases hi'
      unfold nextHead
      simp only
      split
      · next hline =>
        apply hnew
        apply hlead
        intro v hv hb
        have := h.le v hv hb
        omega
      · next hline =>
        obtain ⟨h1, h2⟩ := h.governs g rfl
        refine ⟨(leads_append h1.lt).mpr h1, fun j hj hl => ?_⟩
        rcases Nat.lt_or_ge j before.length with hlt | hge
        · exact h2 j hj ((leads_append hlt).mp hl)
        · obtain rfl := hlast j hl hge
          obtain ⟨t', ht', -, hall⟩ := hl
          rw [List.getElem?_concat_length] at ht'
          obtain ⟨k, hk⟩ := List.mem_iff_getElem?.mp hu
          have hklt := (List.getElem?_eq_some_iff.mp hk).1
          have := hall k u hklt (by rw [List.getElem?_append_left hklt, hk]) hub
          rw [← Option.some.inj ht'] at this
          omega

theorem governors_significant {t : Token} (ht : t.isBlank = false) (head : Option Nat) (reach : Nat)
    (rest : List Token) : governors head reach (t :: rest) = some (nextHead head reach t) ::
      governors (some (nextHead head reach t)) (max reach t.endLine) rest := by
  cases head <;> simp [governors, ht, nextHead]

/-- **The pass finds the heads.** A blank token has none, and a significant one the last head at or
before it. -/
theorem governs_governors {before after : List Token} {head : Option Nat} {reach : Nat}
    (hr : Reached before head reach)
    (hi : ∀ (i : Nat) (t : Token), (before ++ after)[i]? = some t → t.index = i)
    {i : Nat} {t : Token} (ht : after[i]? = some t) :
    if t.isBlank then (governors head reach after)[i]? = some none
    else ∃ g, (governors head reach after)[i]? = some (some g) ∧
      Governs (before ++ after) g (before.length + i) := by
  induction after generalizing before head reach i with
  | nil => simp at ht
  | cons u rest ih =>
    have hsplit : before ++ u :: rest = (before ++ [u]) ++ rest := by simp
    have hu : u.index = before.length := hi before.length u (by simp)
    rw [hsplit] at hi
    have hlen : (before ++ [u]).length = before.length + 1 := by simp
    cases hb : u.isBlank with
    | true =>
      simp only [governors, hb, if_true]
      cases i with
      | zero =>
        cases Option.some.inj ht
        simp [hb]
      | succ i =>
        have := ih (reached_blank hr hb) hi (i := i) (by simpa using ht)
        rw [← hsplit, hlen, show before.length + 1 + i = before.length + (i + 1) by omega] at this
        simpa using this
    | false =>
      have hnext := reached_significant hr hb hu
      rw [governors_significant hb]
      cases i with
      | zero =>
        cases Option.some.inj ht
        obtain ⟨hlead, hlast⟩ := hnext.governs _ rfl
        rw [if_neg (by simp [hb])]
        refine ⟨_, rfl, ?_, ?_, ?_⟩
        · rw [hsplit]
          exact (leads_append hlead.lt).mpr hlead
        · have := hlead.lt
          omega
        · intro j hj hji hl
          rw [hsplit, leads_append (by omega)] at hl
          exact hlast j hj hl
      | succ i =>
        have := ih hnext hi (i := i) (by simpa using ht)
        rw [← hsplit, hlen, show before.length + 1 + i = before.length + (i + 1) by omega] at this
        simpa using this

/-! ## The heads of a document -/

theorem reached_nil : Reached [] none 0 where
  le := by simp
  fresh := by simp
  attained := by simp
  governs := by simp

section Sequence

variable {tokens : Array Token}

/-- The tokens of a sequence say at which index they stand. -/
def Indexed (tokens : Array Token) : Prop :=
  ∀ (i : Nat) (t : Token), tokens[i]? = some t → t.index = i

/-- The token of an index is there and significant. -/
def Significant (tokens : Array Token) (i : Nat) : Prop :=
  ∃ t, tokens[i]? = some t ∧ t.isBlank = false

theorem Significant.lt {tokens : Array Token} {i : Nat} (h : Significant tokens i) :
    i < tokens.size := by
  obtain ⟨t, ht, -⟩ := h
  exact (Array.getElem?_eq_some_iff.mp ht).1

theorem governor_ofTokens (hx : Indexed tokens) {i : Nat} {t : Token} (ht : tokens[i]? = some t) :
    if t.isBlank then (Heads.ofTokens tokens).governor[i]? = some none
    else ∃ g, (Heads.ofTokens tokens).governor[i]? = some (some g) ∧ Governs tokens.toList g i := by
  have hlist : tokens.toList[i]? = some t := by simpa using ht
  have := governs_governors reached_nil (fun i t ht => hx i t (by simpa using ht)) hlist
  simpa [Heads.ofTokens] using this

/-- Two heads of one index are the same. -/
theorem Governs.eq {ts : List Token} {g h i : Nat} (hg : Governs ts g i) (hh : Governs ts h i) :
    g = h := by
  rcases Nat.lt_trichotomy g h with hlt | heq | hgt
  · exact absurd hh.leads (hg.last h hlt hh.le)
  · exact heq
  · exact absurd hg.leads (hh.last g hgt hg.le)

theorem Leads.governs {ts : List Token} {i : Nat} (h : Leads ts i) : Governs ts i i :=
  ⟨h, Nat.le_refl i, fun j hj hji => absurd hj (by omega)⟩

theorem Leads.significant {i : Nat} {t : Token} (h : Leads tokens.toList i)
    (ht : tokens[i]? = some t) : t.isBlank = false := by
  obtain ⟨u, hu, hb, -⟩ := h
  rw [Array.getElem?_toList, ht] at hu
  rwa [Option.some.inj hu]

theorem isHead_iff (hx : Indexed tokens) {i : Nat} {t : Token} (ht : tokens[i]? = some t) :
    (Heads.ofTokens tokens).isHead t = true ↔ Leads tokens.toList i := by
  have hspec := governor_ofTokens hx ht
  have hi := hx i t ht
  unfold Heads.isHead
  rw [hi]
  split at hspec
  · next hb =>
    rw [hspec]
    refine ⟨fun h => by simp at h, fun h => ?_⟩
    rw [h.significant ht] at hb
    cases hb
  · obtain ⟨g, hg, hgov⟩ := hspec
    rw [hg]
    constructor
    · intro h
      have : g = i := by simpa using h
      exact this ▸ hgov.leads
    · intro h
      simp [hgov.eq h.governs]

/-- **Every significant token has a head**, which is significant itself and not after it. -/
theorem headOf_spec (hx : Indexed tokens) {i : Nat} {t : Token} (ht : tokens[i]? = some t)
    (hb : t.isBlank = false) :
    ∃ g h, (Heads.ofTokens tokens).headOf t = .ok h ∧ tokens[g]? = some h ∧
      Governs tokens.toList g i := by
  have hspec := governor_ofTokens hx ht
  rw [if_neg (by simp [hb])] at hspec
  obtain ⟨g, hg, hgov⟩ := hspec
  obtain ⟨h, hh, -⟩ := hgov.leads
  rw [Array.getElem?_toList] at hh
  refine ⟨g, h, ?_, hh, hgov⟩
  have htoken : (Heads.ofTokens tokens).token g = .ok h := by
    simp only [Heads.token, Heads.ofTokens, hh]
  simp only [Heads.headOf, hb, Bool.false_eq_true, if_false, hx i t ht, hg, htoken]

theorem mem_lineHeads (hx : Indexed tokens) {t : Token} :
    t ∈ (Heads.ofTokens tokens).lineHeads ↔
      ∃ i, tokens[i]? = some t ∧ Leads tokens.toList i := by
  unfold Heads.lineHeads
  rw [List.mem_filter]
  constructor
  · rintro ⟨hm, hh⟩
    obtain ⟨i, hi⟩ := List.mem_iff_getElem?.mp hm
    have hi : tokens[i]? = some t := by simpa [Heads.ofTokens] using hi
    exact ⟨i, hi, (isHead_iff hx hi).mp hh⟩
  · rintro ⟨i, hi, hl⟩
    exact ⟨List.mem_iff_getElem?.mpr ⟨i, by simpa [Heads.ofTokens] using hi⟩,
      (isHead_iff hx hi).mpr hl⟩

end Sequence

/-! ## Heads side by side -/

/-- Two tokens that are both blank or both not, and touch the same lines. -/
structure SameLines (t u : Token) : Prop where
  blank : t.isBlank = u.isBlank
  line : t.line = u.line
  endLine : t.isBlank = false → t.endLine = u.endLine

/-- **Tokens on the same lines have the same heads**, if only blank ones come before them. -/
theorem leads_matched {k : Nat} {ts ts' : Array Token} (h : Matched SameLines k ts ts')
    (hfirst : ∀ (i : Nat) (t : Token), i < k → ts[i]? = some t → t.isBlank = true) (i : Nat) :
    Leads ts.toList (i + k) ↔ Leads ts'.toList i := by
  simp only [Leads, Array.getElem?_toList]
  constructor
  · rintro ⟨t, ht, hb, hall⟩
    obtain ⟨t', ht', hsame⟩ := h.of_first ht
    refine ⟨t', ht', hsame.blank ▸ hb, fun j u' hj hu' hub' => ?_⟩
    obtain ⟨u, hu, hsame'⟩ := h.token j u' hu'
    have hub : u.isBlank = false := hsame'.blank ▸ hub'
    rw [← hsame'.endLine hub, ← hsame.line]
    exact hall (j + k) u (by omega) hu hub
  · rintro ⟨t', ht', hb, hall⟩
    obtain ⟨t, ht, hsame⟩ := h.token i t' ht'
    refine ⟨t, ht, hsame.blank ▸ hb, fun j u hj hu hub => ?_⟩
    rcases Nat.lt_or_ge j k with hjk | hjk
    · rw [hfirst j u hjk hu] at hub
      cases hub
    obtain ⟨j, rfl⟩ : ∃ n, j = n + k := ⟨j - k, by omega⟩
    obtain ⟨u', hu', hsame'⟩ := h.of_first hu
    rw [hsame'.endLine hub, hsame.line]
    exact hall j u' (by omega) hu' (hsame'.blank ▸ hub)

/-! ## What stands before a head -/

section Places

variable {text : List Char} {tokens : Array Token}

theorem indexed_of_tokenized {upTo : Nat} (h : Tokenized text upTo tokens) : Indexed tokens :=
  fun i t ht => (h.token i t ht).index

theorem count_take_le (text : List Char) {o p : Nat} (h : o ≤ p) :
    (text.take o).count '\n' ≤ (text.take p).count '\n' := by
  have : text.take o <+: text.take p := (List.take_prefix_take_left h)
  exact this.sublist.count_le _

theorem endLine_eq {i : Nat} {t : Token} (h : TokenAt text i t) :
    t.endLine = (text.take (t.stop - 1)).count '\n' + 1 := by
  have hlt := h.lt
  have hle := h.le
  have hsplit : text.take (t.stop - 1) = text.take t.start ++ t.text.dropLast := by
    rw [h.slice, List.dropLast_eq_take, List.take_take, List.length_take, List.length_drop,
      show min (min (t.stop - t.start) (text.length - t.start) - 1) (t.stop - t.start) =
        t.stop - t.start - 1 by omega, ← List.take_add]
    congr 1
    omega
  rw [Token.endLine, h.line, hsplit, List.count_append]
  omega

theorem line_le_endLine (t : Token) : t.line ≤ t.endLine :=
  Nat.le_add_right _ _

/-- A significant token that covers a place ends on the line of the place or later. -/
theorem line_le_endLine_of_covers {i o : Nat} {t : Token} (h : TokenAt text i t) (ho : o < t.stop) :
    (text.take o).count '\n' + 1 ≤ t.endLine := by
  rw [endLine_eq h]
  have : (text.take o).count '\n' ≤ (text.take (t.stop - 1)).count '\n' :=
    count_take_le text (by omega)
  omega

theorem isBlank_of_mem_blank {t : Token} (h : t.isBlank = true) {c : Char} (hc : c ∈ t.text) :
    Text.isBlank c = true := by
  simp only [Token.isBlank, Bool.and_eq_true, List.all_eq_true] at h
  have := h.2 c hc
  simp only [Bool.or_eq_true, beq_iff_eq] at this
  rcases this with ((rfl | rfl) | rfl) | rfl <;> rfl

/-- A place that no significant token covers holds a blank. -/
theorem isBlank_of_uncovered (h : Tokenized text text.length tokens) {o : Nat} {c : Char}
    (hc : text[o]? = some c)
    (hu : ∀ (i : Nat) (t : Token), tokens[i]? = some t → t.start ≤ o → o < t.stop →
      t.isBlank = true) : Text.isBlank c = true := by
  have ho : o < text.length := (List.getElem?_eq_some_iff.mp hc).1
  by_cases hcov : ∃ (i : Nat) (t : Token), tokens[i]? = some t ∧ t.start ≤ o ∧ o < t.stop
  · obtain ⟨i, t, ht, h1, h2⟩ := hcov
    have hat := h.token i t ht
    refine isBlank_of_mem_blank (hu i t ht h1 h2) (List.mem_iff_getElem?.mpr ⟨o - t.start, ?_⟩)
    rw [hat.slice, List.getElem?_take_of_lt (by omega), List.getElem?_drop, ← hc]
    congr 1
    omega
  · refine h.gaps o c ho hc fun i t ht hin => hcov ⟨i, t, ht, hin⟩

/-- The last line of a text up to an offset has its characters right before the offset. -/
theorem getElem?_of_lastLine {n o : Nat} (hn : n ≤ text.length)
    (h1 : n - (lastLine (text.take n)).length ≤ o) (h2 : o < n) :
    (text.take o).count '\n' = (text.take n).count '\n' ∧
      ∃ c, text[o]? = some c ∧
        (lastLine (text.take n))[o - (n - (lastLine (text.take n)).length)]? = some c := by
  obtain ⟨before, hsplit, -⟩ := exists_eq_append_lastLine (text.take n)
  have hnot := newline_not_mem_lastLine (text.take n)
  generalize lastLine (text.take n) = line at *
  have hlen := congrArg List.length hsplit
  rw [List.length_append, List.length_take, Nat.min_eq_left hn] at hlen
  have hb : n - line.length = before.length := by omega
  rw [hb] at h1 ⊢
  have hoto : text.take o = before ++ line.take (o - before.length) := by
    have : text.take o = (text.take n).take o := by rw [List.take_take, Nat.min_eq_left (by omega)]
    rw [this, hsplit, List.take_append, List.take_of_length_le h1]
  refine ⟨?_, ?_⟩
  · rw [hoto, hsplit, List.count_append, List.count_append, List.count_eq_zero.mpr hnot,
      List.count_eq_zero.mpr fun h => hnot (List.mem_of_mem_take h)]
  · have hlt : o - before.length < line.length := by omega
    refine ⟨_, ?_, List.getElem?_eq_getElem hlt⟩
    have : text[o]? = (text.take n)[o]? := (List.getElem?_take_of_lt h2).symm
    rw [this, hsplit, List.getElem?_append_right h1, List.getElem?_eq_getElem hlt]

/-- **Before a head there are only blanks** on its line. -/
theorem head_margin (h : Tokenized text text.length tokens) {i : Nat} {t : Token}
    (ht : tokens[i]? = some t) (hl : Leads tokens.toList i) :
    Margin (lastLine (text.take t.start)) := by
  have hat := h.token i t ht
  have hlt := hat.lt
  have hle := hat.le
  intro c hc
  refine ⟨?_, fun hn => newline_not_mem_lastLine _ (hn ▸ hc)⟩
  obtain ⟨k, hk⟩ := List.mem_iff_getElem?.mp hc
  have hkl := (List.getElem?_eq_some_iff.mp hk).1
  have hlast := length_lastLine_le (text.take t.start)
  rw [List.length_take, Nat.min_eq_left (by omega)] at hlast
  obtain ⟨hcount, c', hc', hk'⟩ := getElem?_of_lastLine
    (o := t.start - (lastLine (text.take t.start)).length + k)
    (show t.start ≤ text.length by omega) (by omega) (by omega)
  rw [Nat.add_sub_cancel_left, hk] at hk'
  obtain rfl := Option.some.inj hk'
  refine isBlank_of_uncovered h hc' fun j u hu h1 h2 => ?_
  -- A significant token here would reach the line of the head.
  by_contra hub
  have hub : u.isBlank = false := by simpa using hub
  have hji : j < i := by
    rcases Nat.lt_trichotomy j i with hlt' | rfl | hgt
    · exact hlt'
    · rw [ht] at hu
      cases hu
      omega
    · have := h.ordered i j t u hgt ht hu
      omega
  obtain ⟨t', ht', -, hall⟩ := hl
  rw [Array.getElem?_toList, ht] at ht'
  cases ht'
  have h3 := hall j u hji (by rw [Array.getElem?_toList, hu]) hub
  have h4 := line_le_endLine_of_covers (h.token j u hu) h2
  rw [hat.line] at h3
  omega

/-- Heads are in the order of the text, each on a line after those of the head before. -/
theorem lineHeads_ordered (h : Tokenized text text.length tokens) :
    (Heads.ofTokens tokens).lineHeads.Pairwise fun a b => a.endLine < b.line := by
  unfold Heads.lineHeads
  rw [List.pairwise_filter, List.pairwise_iff_getElem]
  intro i j hi hj hij ha hb
  have hx := indexed_of_tokenized h
  have hi' : tokens[i]? = some tokens.toList[i] := by
    rw [← Array.getElem?_toList]
    exact List.getElem?_eq_getElem hi
  have hj' : tokens[j]? = some tokens.toList[j] := by
    rw [← Array.getElem?_toList]
    exact List.getElem?_eq_getElem hj
  have hli := (isHead_iff hx hi').mp ha
  obtain ⟨t, ht, -, hall⟩ := (isHead_iff hx hj').mp hb
  rw [Array.getElem?_toList, hj'] at ht
  rw [← Option.some.inj ht] at hall
  exact hall i _ hij (by rw [Array.getElem?_toList]; exact hi') (hli.significant hi')

/-- Two members of an ordered list are in one order or the other. -/
theorem mem_order {α : Type} {R : α → α → Prop} {xs : List α} (h : xs.Pairwise R) {a b : α}
    (ha : a ∈ xs) (hb : b ∈ xs) (hne : a ≠ b) : R a b ∨ R b a := by
  have : Std.Symm fun x y => R x y ∨ R y x := ⟨fun _ _ => Or.symm⟩
  exact (h.imp (S := fun x y => R x y ∨ R y x) Or.inl).forall ha hb hne

/-- A line has one head. -/
theorem head_unique (h : Tokenized text text.length tokens) {a b : Token}
    (ha : a ∈ (Heads.ofTokens tokens).lineHeads) (hb : b ∈ (Heads.ofTokens tokens).lineHeads)
    (hline : a.line = b.line) : a = b := by
  by_contra hne
  have := line_le_endLine a
  have := line_le_endLine b
  rcases mem_order (lineHeads_ordered h) ha hb hne with h | h <;> omega

/-- Later tokens begin later. -/
theorem start_le_of_le {upTo : Nat} (h : Tokenized text upTo tokens) {i j : Nat} {t u : Token}
    (hij : i ≤ j) (ht : tokens[i]? = some t) (hu : tokens[j]? = some u) : t.start ≤ u.start := by
  rcases Nat.lt_or_eq_of_le hij with hlt | rfl
  · have := h.ordered i j t u hlt ht hu
    have := (h.token i t ht).lt
    omega
  · rw [ht] at hu
    rw [Option.some.inj hu]

/-- Later tokens begin on the same line or on later ones. -/
theorem line_le_of_le {upTo : Nat} (h : Tokenized text upTo tokens) {i j : Nat} {t u : Token}
    (hij : i ≤ j) (ht : tokens[i]? = some t) (hu : tokens[j]? = some u) : t.line ≤ u.line := by
  have := count_take_le text (start_le_of_le h hij ht hu)
  rw [(h.token i t ht).line, (h.token j u hu).line]
  omega

/-- If the line of a significant token has a head, that head governs the token. -/
theorem line_of_governs (h : Tokenized text text.length tokens) {g i : Nat} {t head other : Token}
    (ht : tokens[i]? = some t) (hb : t.isBlank = false) (hg : tokens[g]? = some head)
    (hgov : Governs tokens.toList g i) (hother : other ∈ (Heads.ofTokens tokens).lineHeads)
    (hline : other.line = t.line) : head.line = t.line := by
  obtain ⟨j, hj, hlead⟩ := (mem_lineHeads (indexed_of_tokenized h)).mp hother
  have hji : j ≤ i := by
    by_contra hlt
    obtain ⟨u, hu, -, hall⟩ := hlead
    rw [Array.getElem?_toList, hj] at hu
    obtain rfl := Option.some.inj hu
    have := hall i t (by omega) (by rwa [Array.getElem?_toList]) hb
    have := line_le_endLine t
    omega
  have hjg : j ≤ g := by
    by_contra hlt
    exact hgov.last j (by omega) hji hlead
  have := line_le_of_le h hjg hj hg
  have := line_le_of_le h hgov.le hg ht
  omega

/-- The line of a place later in the text has a higher number. -/
theorem lt_of_count_lt {o p : Nat}
    (h : (text.take o).count '\n' < (text.take p).count '\n') : o < p := by
  by_contra hge
  have := count_take_le text (Nat.not_lt.mp hge)
  omega

/-- What stands before a token on its line is the last line of the text before it. -/
theorem line?_of_tokenAt {i : Nat} {t : Token} (h : TokenAt text i t) :
    (LineTable.ofText text).line? t.line = some ⟨t.start - (lastLine (text.take t.start)).length,
      lastLine (text.take t.start) ++ text.drop t.start⟩ := by
  have hlt := h.lt
  have hle := h.le
  have := line?_ofText (text.take t.start) (text.drop t.start)
  rwa [List.take_append_drop, ← h.line, List.length_take, Nat.min_eq_left (by omega)] at this

theorem leadingText?_eq {d : Document} {i : Nat} {t : Token} (h : TokenAt d.text i t) :
    d.leadingText? t = some (lastLine (d.text.take t.start)) := by
  have hlt := h.lt
  have hle := h.le
  have hlen : (d.text.take t.start).length = t.start := by
    rw [List.length_take, Nat.min_eq_left (by omega)]
  have := upTo_line (d.text.take t.start) (d.text.drop t.start) 0
  rw [hlen, Nat.add_zero, List.take_zero, List.append_nil] at this
  rw [Document.leadingText?, d.lines_eq, line?_of_tokenAt h, Option.map_some, this]

theorem start?_of_tokenAt {d : Document} {i : Nat} {t : Token} (h : TokenAt d.text i t) :
    d.lines.start? t.line = some (t.start - (lastLine (d.text.take t.start)).length) := by
  rw [LineTable.start?, d.lines_eq, line?_of_tokenAt h, Option.map_some]

end Places

end MarkupIndent.Margin
