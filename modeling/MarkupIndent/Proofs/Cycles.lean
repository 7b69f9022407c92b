import Mathlib.Data.List.Chain
import MarkupIndent.Proofs.ResolverCalls
import MarkupIndent.Proofs.TabMargins

/-!
# Cycles of offsets

Each checked head other than the root is followed by the head of the line of its base, so what
follows a head is a single way. It may come to the root or to a line that is not checked, and then
the head is resolved. If it never does, it runs into a cycle, since there are only so many heads,
and it does so at the first head that comes a second time.

* `OffsetGraph.OnSignificant`, `onSignificant_graphsAfter`: entries whose bases are significant.
* `Document.Placed`, `placed_of_read`: tokens that stand on the lines of their document.
* `Layout.Endless`: the way from a head never comes to an end.
* `Layout.IsCycle`, `cycle_of_path`: **the chain that is reported is a cycle on the way**.
* `cycle_of_endless`: **a way without an end is reported**.
* `resolve_cycle_iff`: so cycles are found exactly.
-/

namespace MarkupIndent.Margin

open Markup

/-! ## Significant bases -/

/-- Every entry hangs on a significant token. -/
def OffsetGraph.OnSignificant (tokens : Array Token) (g : OffsetGraph) : Prop :=
  ∀ (i : Nat) (e : OffsetEntry), g.entries[i]? = some (some e) →
    ∃ base, tokens[e.base]? = some base ∧ base.isBlank = false

/-- A reference to a token of the document is to a significant one. -/
def TokenRef.Significant (tokens : Array Token) : TokenRef → Prop
  | .own i => ∀ t ∈ tokens[i]?, t.isBlank = false
  | .foreign _ => True

instance (tokens : Array Token) : DecidablePred (TokenRef.Significant tokens)
  | .own i => inferInstanceAs (Decidable (∀ t ∈ tokens[i]?, t.isBlank = false))
  | .foreign _ => .isTrue trivial

/-- The base of a call, if it has one, is significant. -/
def GraphCall.OnSignificant (tokens : Array Token) : GraphCall → Prop
  | .declare _ base _ _ | .range _ _ base _ _ => base.Significant tokens
  | .setRoot _ | .pin _ _ => True

instance (tokens : Array Token) : DecidablePred (GraphCall.OnSignificant tokens)
  | .declare _ base _ _ | .range _ _ base _ _ =>
    inferInstanceAs (Decidable (base.Significant tokens))
  | .setRoot _ | .pin _ _ => .isTrue trivial

/-- The base of a step, if it has one, is significant. -/
def GraphStep.OnSignificant (tokens : Array Token) : GraphStep → Prop
  | .on _ call => call.OnSignificant tokens
  | .copy _ => True

instance (tokens : Array Token) : DecidablePred (GraphStep.OnSignificant tokens)
  | .on _ call => inferInstanceAs (Decidable (call.OnSignificant tokens))
  | .copy _ => .isTrue trivial

namespace OffsetGraph

variable {tokens : Array Token} {g g' : OffsetGraph}

theorem onSignificant_empty (heads : Heads) : (empty heads).OnSignificant tokens := by
  intro i e h
  simp [empty, Array.getElem?_replicate] at h

theorem onSignificant_setRoot (h : g.OnSignificant tokens) {token : TokenRef}
    (hg : g.setRoot token = .ok g') : g'.OnSignificant tokens := by
  obtain ⟨index, -, hg⟩ := bind_eq_ok.mp hg
  cases hg
  intro i e he
  rcases entry_of_set he with he | ⟨-, ⟨⟩⟩
  exact h i e he

/-- The base of a declaration that is not refused is a token of the document. -/
theorem significant_of_ownIndex (hs : g.Sound tokens) {base : TokenRef} {b : Nat}
    (hbase : base.Significant tokens) (hb : g.ownIndex base = .ok b) :
    ∃ t, tokens[b]? = some t ∧ t.isBlank = false := by
  have hlt := hs.lt_of_ownIndex hb
  have ht := Array.getElem?_eq_getElem hlt
  cases base with
  | foreign token => cases hb
  | own i =>
    obtain rfl : i = b := by
      unfold ownIndex at hb
      simp only at hb
      split at hb
      · cases hb
        rfl
      · cases hb
    exact ⟨_, ht, hbase _ ht⟩

theorem onSignificant_declare (hs : g.Sound tokens) (h : g.OnSignificant tokens)
    {target base : TokenRef} {kind : OffsetKind} {weight : Int}
    (hbase : base.Significant tokens) (hg : g.declare target base kind weight = .ok g') :
    g'.OnSignificant tokens := by
  obtain ⟨⟨⟩, -, hg⟩ := bind_eq_ok.mp hg
  obtain ⟨t, -, hg⟩ := bind_eq_ok.mp hg
  obtain ⟨b, hb, hg⟩ := bind_eq_ok.mp hg
  split at hg
  · cases hg
    exact h
  cases hg
  intro i e he
  rcases entry_of_set he with he | ⟨-, ⟨⟩⟩
  · exact h i e he
  · exact significant_of_ownIndex hs hbase hb

/-- **A call with a significant base keeps all bases significant.** -/
theorem onSignificant_carryOut (hx : Indexed tokens) (hs : g.Sound tokens)
    (h : g.OnSignificant tokens) {call : GraphCall} (hcall : call.OnSignificant tokens)
    (hg : call.carryOut g = .ok g') : g'.OnSignificant tokens := by
  have hkeeps {α : Type} {f : OffsetGraph → α → Except Fault OffsetGraph} {xs : List α}
      (hf : ∀ x ∈ xs, ∀ g g', g.Sound tokens ∧ g.OnSignificant tokens → f g x = .ok g' →
        g'.Sound tokens ∧ g'.OnSignificant tokens) (hg : xs.foldlM f g = .ok g') :
      g'.OnSignificant tokens :=
    (fold_keeps hf ⟨hs, h⟩ hg).2
  cases call with
  | setRoot token => exact onSignificant_setRoot h hg
  | declare target base kind weight => exact onSignificant_declare hs h hcall hg
  | range first last base kind weight =>
    refine hkeeps (fun t _ g g' h hg => ?_) hg
    split at hg
    · cases hg
      exact h
    · exact ⟨sound_declare h.1 hg, onSignificant_declare h.1 h.2 hcall hg⟩
  | pin first last =>
    refine hkeeps (fun t ht g g' h hg => ?_) hg
    have hbase : (TokenRef.own t.index).Significant tokens := by
      rw [hs.heads] at ht
      obtain ⟨i, -, -, hi, hblank⟩ := mem_between.mp ht
      intro u hu
      rw [hx i t hi, hi] at hu
      cases hu
      exact hblank
    exact ⟨sound_declare h.1 hg, onSignificant_declare h.1 h.2 hbase hg⟩

end OffsetGraph

theorem onSignificant_graphsAfter (s : TokenStream) {steps : List GraphStep}
    (hsteps : ∀ step ∈ steps, step.OnSignificant s.tokens) {g : OffsetGraph}
    (hg : g ∈ graphsAfter [.empty (.ofTokens s.tokens)] steps) :
    g.Sound s.tokens ∧ g.OnSignificant s.tokens := by
  refine graphsAfter_keeps (P := fun g => g.Sound s.tokens ∧ g.OnSignificant s.tokens) s.indexed
    (fun _ h => h.1) (fun g hg => ?_) (fun n call hmem g g' h hg => ?_) g hg
  · rw [List.mem_singleton.mp hg]
    exact ⟨OffsetGraph.sound_empty _, OffsetGraph.onSignificant_empty _⟩
  · exact ⟨OffsetGraph.sound_carryOut h.1 hg,
      OffsetGraph.onSignificant_carryOut s.indexed h.1 h.2 (hsteps _ hmem) hg⟩

/-! ## Tokens on the lines of a document -/

/-- The tokens of a document know their places, and each stands on a line of the text. -/
structure Placed (d : Document) : Prop where
  indexed : Indexed d.tokens
  onLine : ∀ (i : Nat) (t : Token), d.tokens[i]? = some t →
    ∃ blanks, d.leadingText? t = some blanks

/-- What is read is placed. -/
theorem placed_of_read {text : List Char} {d : Document} (h : Document.read text = .ok d) :
    Placed d := by
  have htokens := tokenized_of_read h
  rw [← text_of_read h] at htokens
  exact ⟨indexed_of_tokenized htokens, fun i t ht => ⟨_, leadingText?_eq (htokens.token i t ht)⟩⟩

namespace Layout

/-- A layout of a placed document, with a graph whose bases are significant. -/
structure Firm (l : Layout) : Prop extends l.Sound where
  onSignificant : l.graph.OnSignificant l.document.tokens
  placed : Placed l.document

variable {l : Layout}

theorem Firm.actual (hl : l.Firm) {t : Token} (ht : l.Owns t) : ∃ i, l.actual t = .ok i := by
  obtain ⟨blanks, hblanks⟩ := hl.placed.onLine t.index t ht
  exact ⟨l.unit.measure blanks, by simp only [Layout.actual, leadingText, hblanks]; rfl⟩

/-- A token that is not pinned hangs on a base whose line has a head. -/
theorem Firm.hangsBy (hl : l.Firm) {t : Token} {e : OffsetEntry}
    (hroot : l.graph.root ≠ some t.index) (he : l.graph.entry t.index = .ok (some e))
    (hkind : e.kind ≠ .pinned) : ∃ base other, l.HangsBy t e base other := by
  have hentry : l.graph.entries[t.index]? = some (some e) := by
    unfold OffsetGraph.entry at he
    split at he
    · next h =>
      cases he
      exact h
    · cases he
  obtain ⟨base, hbase, hblank⟩ := hl.onSignificant t.index e hentry
  obtain ⟨-, other, hother, -⟩ := headOf_spec hl.indexed hbase hblank
  rw [← hl.graph.heads] at hother
  refine ⟨base, other, hroot, he, hkind, ?_, hother⟩
  simp only [hl.graph.heads, Heads.token, Heads.ofTokens, hbase]

/-- It is always decided whether the graph is in charge of a line. -/
theorem Firm.isChecked (hl : l.Firm) {t : Token} (ht : l.Owns t) :
    ∃ checked, l.isChecked t = .ok checked := by
  unfold Layout.isChecked
  split
  · exact ⟨true, rfl⟩
  next hroot =>
  have hlt : t.index < l.graph.entries.size := by
    rw [hl.graph.size]
    exact (Array.getElem?_eq_some_iff.mp ht).1
  have hentry : l.graph.entry t.index = .ok l.graph.entries[t.index] := by
    rw [OffsetGraph.entry, Array.getElem?_eq_getElem hlt]
  rw [hentry]
  cases he : l.graph.entries[t.index] with
  | none => exact ⟨false, rfl⟩
  | some e =>
    simp only [bind, Except.bind]
    split
    · exact ⟨false, rfl⟩
    · next hkind =>
      obtain ⟨base, other, h⟩ := hl.hangsBy hroot (he ▸ hentry) hkind
      simp only [h.onBase, h.onLine]
      exact ⟨_, rfl⟩

/-! ## The way from a head -/

/-- A checked head hangs on another one. -/
theorem exists_hangsBy {t : Token} (hroot : l.graph.root ≠ some t.index)
    (hc : l.isChecked t = .ok true) : ∃ e base other, l.HangsBy t e base other := by
  rw [Layout.isChecked, if_neg hroot] at hc
  obtain ⟨entry, hentry, hc⟩ := bind_eq_ok.mp hc
  cases entry with
  | none => cases hc
  | some e =>
    by_cases hkind : e.kind = .pinned
    · simp only [if_pos hkind] at hc
      cases hc
    simp only [if_neg hkind] at hc
    obtain ⟨base, hbase, hc⟩ := bind_eq_ok.mp hc
    obtain ⟨other, hother, -⟩ := bind_eq_ok.mp hc
    exact ⟨e, base, other, hroot, hentry, hkind, hbase, hother⟩

theorem HangsBy.unique {t : Token} {e e' : OffsetEntry} {base base' other other' : Token}
    (h : l.HangsBy t e base other) (h' : l.HangsBy t e' base' other') : other = other' := by
  obtain rfl := Option.some.inj (Except.ok.inj (h.entry.symm.trans h'.entry))
  obtain rfl := Except.ok.inj (h.onBase.symm.trans h'.onBase)
  exact Except.ok.inj (h.onLine.symm.trans h'.onLine)

/-- One head follows a checked head. -/
theorem next_unique : Relator.RightUnique l.Next :=
  fun _ _ _ ⟨_, _, _, h⟩ ⟨_, _, _, h'⟩ => h.unique h'

theorem Sound.owns_of_next (hl : l.Sound) {t other : Token} (h : l.Next t other) :
    l.Owns other := by
  obtain ⟨-, e, base, hby⟩ := h
  exact hl.owns_of_headOf hby.onLine

/-- The step from a head that hangs on another one. -/
theorem HangsBy.link {t base other : Token} {e : OffsetEntry} (h : l.HangsBy t e base other)
    {checked : Bool} (hc : l.isChecked other = .ok checked) :
    l.link t = if checked then .ok (.hop e base other)
      else l.actual other >>= fun i => l.adjust e base other i >>= fun j => .ok (.settled j) := by
  simp only [Layout.link, h.entry, h.onBase, h.onLine, hc, if_neg h.kind, bind, Except.bind]

/-- A way comes to its end: at the root, or at a line that is not checked. -/
def Ends (l : Layout) (t : Token) : Prop :=
  l.graph.root = some t.index ∨ l.isChecked t = .ok false

/-- The way from a head never comes to an end. -/
def Endless (l : Layout) (t : Token) : Prop :=
  ∀ y, Relation.ReflTransGen l.Next t y → ¬ l.Ends y

/-- The way from a head goes on at each head on it. -/
theorem Endless.next {t other : Token} (h : l.Endless t) (hn : l.Next t other) :
    l.Endless other :=
  fun y hy => h y (.head hn hy)

/-- **A head on a way without an end waits for the next one.** -/
theorem Endless.hop (hl : l.Firm) {t : Token} (h : l.Endless t) (hc : l.isChecked t = .ok true) :
    ∃ e base other, l.link t = .ok (.hop e base other) ∧ l.Next t other ∧
      l.isChecked other = .ok true := by
  have hroot : l.graph.root ≠ some t.index := fun hroot => h t .refl (.inl hroot)
  obtain ⟨e, base, other, hby⟩ := exists_hangsBy hroot hc
  have hnext : l.Next t other := ⟨hc, e, base, hby⟩
  obtain ⟨checked, hother⟩ := hl.isChecked (hl.owns_of_headOf hby.onLine)
  cases checked with
  | true => exact ⟨e, base, other, hby.link hother, hnext, hother⟩
  | false => exact absurd (.inr hother) (h other (.single hnext))

/-- **A way without an end is reported.** -/
theorem cycle_of_endless (hl : l.Firm) {t : Token} (h : l.Endless t)
    (hc : l.isChecked t = .ok true) (active : List Nat) :
    ∃ chain, l.resolveFrom [] active t = .error (.cycle chain) := by
  generalize hmemo : ([] : Memo) = memo
  fun_induction resolveFrom l memo active t with
  | case1 active t i hi =>
    subst hmemo
    cases hi
  | case2 => exact ⟨_, rfl⟩
  | case3 active t _ _ hroot => exact absurd (.inl hroot) (h t .refl)
  | case4 active t _ _ _ fault hlink =>
    obtain ⟨e, base, other, hhop, -⟩ := h.hop hl hc
    cases hlink.symm.trans hhop
  | case5 active t _ _ _ i hlink =>
    obtain ⟨e, base, other, hhop, -⟩ := h.hop hl hc
    cases hlink.symm.trans hhop
  | case6 active t _ _ _ e base other hlink ih =>
    obtain ⟨e', base', other', hhop, hnext, hother⟩ := h.hop hl hc
    cases hlink.symm.trans hhop
    obtain ⟨chain, hchain⟩ := ih (h.next hnext) hother
    exact ⟨chain, by rw [hchain]; rfl⟩

/-! ## The chain that is reported -/

/-- A cycle on the way from a head, closed by the head with which it begins. -/
def IsCycle (l : Layout) (head : Token) (chain : List Nat) : Prop :=
  ∃ first rest, chain = (first :: rest ++ [first]).map Token.index ∧
    ((first :: rest).map Token.index).Nodup ∧ (first :: rest ++ [first]).IsChain l.Next ∧
    Relation.ReflTransGen l.Next head first

/-- The heads from one on that wait for each other, and the one that they wait for. -/
structure Path (l : Layout) (head : Token) (waiting : List Token) (t : Token) : Prop where
  owns : ∀ u ∈ waiting ++ [t], l.Owns u
  chain : (waiting ++ [t]).IsChain l.Next
  nodup : (waiting.map Token.index).Nodup
  reach : Relation.ReflTransGen l.Next head t

theorem path_single {head : Token} (h : l.Owns head) : l.Path head [] head :=
  ⟨by simpa using h, by simp, List.nodup_nil, .refl⟩

/-- A path goes on to the next head, if its last one does not wait already. -/
theorem Path.snoc (hl : l.Sound) {head t other : Token} {waiting : List Token}
    (h : l.Path head waiting t) (ht : t.index ∉ waiting.map Token.index) (hn : l.Next t other) :
    l.Path head (waiting ++ [t]) other := by
  refine ⟨fun u hu => ?_, ?_, ?_, h.reach.tail hn⟩
  · rcases List.mem_append.mp hu with hu | hu
    · exact h.owns u hu
    · rw [List.mem_singleton.mp hu]
      exact hl.owns_of_next hn
  · rw [List.isChain_append]
    refine ⟨h.chain, by simp, fun x hx y hy => ?_⟩
    rw [List.getLast?_concat] at hx
    cases hx
    cases hy
    exact hn
  · rw [List.map_append, List.map_singleton]
    exact List.nodup_append.mpr ⟨h.nodup, by simp, by simpa using ht⟩

/-- A path that comes to a head that waits already has run into a cycle. -/
theorem Path.isCycle {head t : Token} {waiting : List Token} (h : l.Path head waiting t)
    (ht : t.index ∈ waiting.map Token.index) :
    l.IsCycle head ((waiting.map Token.index).dropWhile (· != t.index) ++ [t.index]) := by
  obtain ⟨u, hu, hindex⟩ := List.mem_map.mp ht
  have hown := h.owns u (List.mem_append_left _ hu)
  rw [Owns, hindex, h.owns t (List.mem_append_right _ List.mem_cons_self)] at hown
  cases hown
  obtain ⟨before, rest, rfl⟩ := List.append_of_mem hu
  have hnodup := h.nodup
  have hchain := h.chain
  rw [List.map_append, List.nodup_append] at hnodup
  rw [List.append_assoc] at hchain
  refine ⟨t, rest, ?_, hnodup.2.1, hchain.right_of_append, h.reach⟩
  have hdrop : ∀ i ∈ before.map Token.index, (i != t.index) = true := by
    intro i hi
    exact bne_iff_ne.mpr fun heq => hnodup.2.2 i hi t.index (by simp) heq
  rw [List.map_append, List.dropWhile_append_of_pos hdrop, List.map_cons,
    List.dropWhile_cons_of_neg (by simp)]
  simp

/-- The rule of an entry can be carried out. -/
theorem Firm.adjust (hl : l.Firm) {t base other : Token} {e : OffsetEntry}
    (h : l.HangsBy t e base other) (i : Indentation) : ∃ j, l.adjust e base other i = .ok j := by
  refine adjust_ok (fun label hlabel => ?_) h.kind base other i
  have hknown := hl.kind h.entry
  simp [hlabel, OffsetKind.all] at hknown

/-- **A head is resolved, or it is reported to wait for a cycle**, which is one. -/
theorem Firm.resolveFrom_cases (hl : l.Firm) (memo : Memo) {head t : Token} {waiting : List Token}
    (h : l.Path head waiting t) (hc : l.isChecked t = .ok true) :
    (∃ r, l.resolveFrom memo (waiting.map Token.index) t = .ok r) ∨
      ∃ chain, l.resolveFrom memo (waiting.map Token.index) t = .error (.cycle chain) ∧
        l.IsCycle head chain := by
  generalize hactive : waiting.map Token.index = active
  fun_induction resolveFrom l memo active t generalizing waiting with
  | case1 => exact .inl ⟨_, rfl⟩
  | case2 active t _ ht =>
    subst hactive
    exact .inr ⟨_, rfl, h.isCycle ht⟩
  | case3 => exact .inl ⟨_, rfl⟩
  | case4 active t _ _ hroot fault hlink =>
    obtain ⟨e, base, other, hby⟩ := exists_hangsBy hroot hc
    have hown := hl.owns_of_headOf hby.onLine
    obtain ⟨checked, hother⟩ := hl.isChecked hown
    obtain ⟨i, hi⟩ := hl.actual hown
    obtain ⟨j, hj⟩ := hl.adjust hby i
    rw [hby.link hother, hi] at hlink
    simp only [bind, Except.bind, hj] at hlink
    split at hlink <;> cases hlink
  | case5 => exact .inl ⟨_, rfl⟩
  | case6 active t _ ht hroot e base other hlink ih =>
    subst hactive
    obtain ⟨e, base, other, hby, ⟨hother, hhop⟩ | ⟨-, i, j, -, -, hhop⟩⟩ :=
      link_cases hroot hc hlink
    · cases hhop
      have hpath := h.snoc hl.toSound ht ⟨hc, e, base, hby⟩
      rcases ih hpath hother (by simp) with ⟨⟨i, memo'⟩, hr⟩ | ⟨chain, hr, hcycle⟩
      · obtain ⟨j, hj⟩ := hl.adjust hby i
        rw [hr]
        simp only [bind, Except.bind, hj]
        exact .inl ⟨_, rfl⟩
      · rw [hr]
        exact .inr ⟨chain, rfl, hcycle⟩
    · cases hhop

/-- Nothing follows a head at which a way ends. -/
theorem Ends.not_next {t other : Token} (h : l.Ends t) : ¬ l.Next t other := by
  rintro ⟨hc, e, base, hby⟩
  rcases h with hroot | hunchecked
  · exact hby.below hroot
  · cases hc.symm.trans hunchecked

/-- What is reached from a head of a cycle leads back to it. -/
theorem back_of_cycle {first y : Token} (hcycle : Relation.TransGen l.Next first first)
    (hy : Relation.ReflTransGen l.Next first y) : Relation.TransGen l.Next y first := by
  induction hy with
  | refl => exact hcycle
  | tail _ hnext ih =>
    obtain ⟨z, hz, hback⟩ := Relation.TransGen.head'_iff.mp ih
    obtain rfl := next_unique hnext hz
    rcases Relation.reflTransGen_iff_eq_or_transGen.mp hback with rfl | hback
    · exact hcycle
    · exact hback

/-- **A way that leads to a cycle has no end.** -/
theorem IsCycle.endless {head : Token} {chain : List Nat} (h : l.IsCycle head chain) :
    l.Endless head := by
  obtain ⟨first, rest, -, -, hchain, hreach⟩ := h
  have hcycle : Relation.TransGen l.Next first first := by
    obtain ⟨z, more, hmore⟩ := List.exists_cons_of_ne_nil (List.concat_ne_nil first rest)
    rw [List.cons_append, hmore, List.isChain_cons_cons] at hchain
    refine .head' hchain.1 (List.relationReflTransGen_of_exists_isChain_cons more hchain.2 ?_)
    simp only [← hmore, List.getLast_concat]
  intro y hy hends
  have hback : Relation.TransGen l.Next y first := by
    rcases Relation.ReflTransGen.total_of_right_unique next_unique hy hreach with hy | hy
    · exact .trans_right hy hcycle
    · exact back_of_cycle hcycle hy
  obtain ⟨z, hz, -⟩ := Relation.TransGen.head'_iff.mp hback
  exact hends.not_next hz

/-- **Cycles are found exactly.** Take any calls on a graph, with significant bases, and a line head
that is checked. Resolving it afresh gives an indentation or a cycle. It gives a cycle if and only
if the way from the head comes neither to the root nor to a line that is not checked; and the chain
that is reported then is a cycle on the way, without any head twice, closed by its first head. -/
theorem resolve_cycle_iff {l : Layout} (hd : Placed l.document) {steps : List GraphStep}
    (hsteps : ∀ step ∈ steps, step.OnSignificant l.document.tokens)
    (hg : l.graph ∈ graphsAfter [.empty (.ofTokens l.document.tokens)] steps)
    {head : Token} (hhead : head ∈ l.graph.heads.lineHeads) (hc : l.isChecked head = .ok true) :
    ((∃ chain, l.resolve [] head = .error (.cycle chain)) ↔ l.Endless head) ∧
      (∀ chain, l.resolve [] head = .error (.cycle chain) → l.IsCycle head chain) ∧
      (¬ l.Endless head → ∃ i memo, l.resolve [] head = .ok (i, memo)) := by
  obtain ⟨hsound, hbases⟩ := onSignificant_graphsAfter ⟨l.document.tokens, hd.indexed⟩ hsteps hg
  have hl : l.Firm := ⟨⟨hd.indexed, hsound⟩, hbases, hd⟩
  have hown : l.Owns head := by
    rw [hsound.heads, mem_lineHeads hd.indexed] at hhead
    obtain ⟨i, hi, -⟩ := hhead
    rwa [Owns, hd.indexed i head hi]
  have hcases := hl.resolveFrom_cases [] (path_single hown) hc
  have hcycle : ∀ chain, l.resolve [] head = .error (.cycle chain) → l.IsCycle head chain := by
    intro chain hchain
    rcases hcases with ⟨r, hr⟩ | ⟨chain', hr, hcycle⟩
    · cases hr.symm.trans hchain
    · cases hr.symm.trans hchain
      exact hcycle
  refine ⟨⟨fun h => ?_, fun h => cycle_of_endless hl h hc []⟩, hcycle, fun hne => ?_⟩
  · obtain ⟨chain, hchain⟩ := h
    exact (hcycle chain hchain).endless
  rcases hcases with ⟨⟨i, memo⟩, hr⟩ | ⟨chain, hr, hcycle⟩
  · exact ⟨i, memo, hr⟩
  · exact absurd hcycle.endless hne

/-- Two lines that hang on each other, and a third one that hangs on the first of them. -/
theorem resolve_cycle_iff_tail :
    ∃ (l : Layout) (head : Token), Document.read "<p>\n  a\n  b\n</p>".toList = .ok l.document ∧
      head ∈ l.graph.heads.lineHeads ∧ l.isChecked head = .ok true ∧
      l.resolve [] head = .error (.cycle [4, 6, 4]) ∧ l.IsCycle head [4, 6, 4] ∧
      l.Endless head := by
  let text := "<p>\n  a\n  b\n</p>".toList
  let d : Document := (Document.read text).toOption.get (by decide +kernel)
  let steps : List GraphStep := [
    .on 0 (.setRoot (.own 0)),
    .on 0 (.declare (.own 4) (.own 6) .relative 1),
    .on 0 (.declare (.own 6) (.own 4) .relative 1),
    .on 0 (.declare (.own 8) (.own 4) .same 0)]
  let graphs := graphsAfter [.empty (.ofTokens d.tokens)] steps
  let l : Layout := ⟨(graphs[0]?).get (by decide +kernel), d, ⟨.spaces 2, false⟩⟩
  let head : Token := (d.tokens[8]?).get (by decide +kernel)
  have hread : Document.read text = .ok d := by
    have hd : (Document.read text).toOption = some d := (Option.some_get _).symm
    rcases hr : Document.read text with fault | d'
    · rw [hr] at hd
      cases hd
    · rw [hr] at hd
      exact congrArg Except.ok (Option.some.inj hd)
  have hsteps : ∀ step ∈ steps, step.OnSignificant d.tokens := by decide +kernel
  have hg : l.graph ∈ graphs := List.mem_of_getElem? (Option.some_get _).symm
  have hhead : head ∈ l.graph.heads.lineHeads := by decide +kernel
  have hc : l.isChecked head = .ok true := by decide +kernel
  have hcycle : l.resolve [] head = .error (.cycle [4, 6, 4]) := by decide +kernel
  obtain ⟨hiff, hreported, -⟩ := resolve_cycle_iff (placed_of_read hread) hsteps hg hhead hc
  exact ⟨l, head, hread, hhead, hc, hcycle, hreported _ hcycle, hiff.mp ⟨_, hcycle⟩⟩

end Layout

end MarkupIndent.Margin
