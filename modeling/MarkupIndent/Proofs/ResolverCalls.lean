import Mathlib.Algebra.Ring.Int.Defs
import MarkupIndent.Proofs.GraphCalls
import MarkupIndent.Proofs.Resolution

/-!
# Calls on a resolver

A resolver keeps what it has found from one call to the next, and during a call it keeps the heads
that wait for others. Here it does so as it goes, so what it has kept would stay if a call failed
later on. One memo serves for heads that are checked, for heads that are not, and for tokens inside
a line, which are resolved by other rules than their lines. None of this shows: what is kept for a
token is what resolving it means by the entries of the graph alone, and a call that fails keeps
nothing, since it fails before any head that waits for it is found.

* `Resolver`, `Layout.resolveIn`: a resolver with its state, and its calls.
* `Layout.Means`: what a call means, without memo and without heads that wait.
* `serves_reply`: **a reply gives the meaning of its call**, and a failure leaves no trace.
* `Means.answered`: **a call that means something is answered**.
* `reply_eq`: **a reply is the answer with the memo**, which is handed on from call to call.
* `means_of_hops`: **a chain adds up its levels**.
* `reply_iff_means`: all this after any calls.
-/

namespace MarkupIndent.Margin

open Markup

/-! ## A resolver that keeps its state -/

/-- The indentations that are found already, and the heads that wait for others, the first of them
longest. -/
structure Resolver where
  memo : Memo
  active : List Nat

/-- The answer to a call, and the resolver that the call leaves, also if it fails. -/
abbrev Reply := Except Fault Indentation × Resolver

namespace Resolver

/-- A resolver that was not asked yet. -/
def fresh : Resolver :=
  ⟨[], []⟩

/-- A head begins to wait. -/
def push (s : Resolver) (index : Nat) : Resolver :=
  { s with active := s.active ++ [index] }

/-- The head that began to wait last does not wait any more. -/
def pop (s : Resolver) : Resolver :=
  { s with active := s.active.dropLast }

theorem pop_push (s : Resolver) (index : Nat) : (s.push index).pop = s := by
  rw [pop, push, List.dropLast_concat]

/-- What is found for a head is kept. -/
def store (s : Resolver) (index : Nat) : Except Fault Indentation → Reply
  | .ok i => (.ok i, { s with memo := (index, i) :: s.memo })
  | .error fault => (.error fault, s)

end Resolver

namespace Layout

/-- A token that has an entry, or none, is one that entries are kept for. -/
theorem index_lt_of_entry {l : Layout} {i : Nat} {entry : Option OffsetEntry}
    (h : l.graph.entry i = .ok entry) : i < l.graph.entries.size := by
  unfold OffsetGraph.entry at h
  split at h
  · next he => exact (Array.getElem?_eq_some_iff.mp he).1
  · cases h

/-- A head that begins to wait was idle. -/
theorem idle_push_lt {l : Layout} {s : Resolver} {i : Nat} {entry : Option OffsetEntry}
    (h : l.graph.entry i = .ok entry) (hi : i ∉ s.active) :
    idle l.graph.entries.size (s.push i).active < idle l.graph.entries.size s.active :=
  idle_append_lt (index_lt_of_entry h) hi

variable (l : Layout)

mutual

/-- The expected indentation of a head. While the head waits for another one it is active, whatever
comes of it. -/
def resolveIn (s : Resolver) (head : Token) : Reply :=
  match s.memo.lookup head.index with
  | some i => (.ok i, s)
  | none =>
    if _ha : head.index ∈ s.active then
      (.error (.cycle (s.active.dropWhile (· != head.index) ++ [head.index])), s)
    else if l.graph.root = some head.index then s.store head.index (.ok .none)
    else
      -- a head without a place for an entry waits for nothing, so it need not be active
      match _he : l.graph.entry head.index with
      | .error fault => (.error fault, s)
      | .ok entry =>
        let (answer, s) := followIn (s.push head.index) head entry
        s.pop.store head.index answer
termination_by (idle l.graph.entries.size s.active, 0)
decreasing_by exact .left _ _ (idle_push_lt _he _ha)

/-- The indentation of a head by its entry. -/
def followIn (s : Resolver) (head : Token) : Option OffsetEntry → Reply
  | none => (l.actual head, s)
  | some e =>
    if e.kind = .pinned then (l.actual head, s)
    else
      match l.graph.heads.token e.base with
      | .error fault => (.error fault, s)
      | .ok base =>
        match e.kind with
        | .relative =>
          let (answer, s) := anchorIn s base
          (answer.map (l.unit.indent · e.weight), s)
        | .same => anchorIn s base
        | .align => visualIn s base
        | kind => (.error (.unknownKind kind.label), s)
termination_by (idle l.graph.entries.size s.active, 3)

/-- The indentation of the line of a token. -/
def anchorIn (s : Resolver) (t : Token) : Reply :=
  match l.graph.heads.headOf t with
  | .error fault => (.error fault, s)
  | .ok head =>
    match l.isChecked head with
    | .error fault => (.error fault, s)
    | .ok true => resolveIn s head
    | .ok false => (l.actual head, s)
termination_by (idle l.graph.entries.size s.active, 1)

/-- The column of a token, as an indentation. -/
def visualIn (s : Resolver) (t : Token) : Reply :=
  match l.graph.heads.headOf t with
  | .error fault => (.error fault, s)
  | .ok head =>
    let (answer, s) := anchorIn s t
    (answer.map fun i =>
      if head.line = t.line then l.unit.shift i ((t.column : Int) - head.column) else i, s)
termination_by (idle l.graph.entries.size s.active, 2)

end

end Layout

/-- The calls on a resolver. -/
inductive ResolverCall where
  | resolve (t : Token)
  | anchor (t : Token)
  | visual (t : Token)

/-- The token that a call is about. -/
def ResolverCall.token : ResolverCall → Token
  | .resolve t | .anchor t | .visual t => t

namespace Layout

variable (l : Layout)

/-- The answer to a call, and the resolver after it. -/
def reply (s : Resolver) : ResolverCall → Reply
  | .resolve t => l.resolveIn s t
  | .anchor t => l.anchorIn s t
  | .visual t => l.visualIn s t

/-- The resolver after calls in turn. -/
def after (s : Resolver) (calls : List ResolverCall) : Resolver :=
  calls.foldl (fun s call => (l.reply s call).2) s

/-! ## What calls mean -/

/-- A token other than the root hangs on a base by its entry. -/
structure BasedOn (t : Token) (e : OffsetEntry) (base : Token) : Prop where
  below : l.graph.root ≠ some t.index
  entry : l.graph.entry t.index = .ok (some e)
  kind : e.kind ≠ .pinned
  onBase : l.graph.heads.token e.base = .ok base

/-- A token other than the root hangs on nothing: it has no entry, or is pinned by it. -/
structure Loose (t : Token) : Prop where
  below : l.graph.root ≠ some t.index
  entry : ∃ entry, l.graph.entry t.index = .ok entry ∧ ∀ e ∈ entry, e.kind = .pinned

/-- The meaning of a call, by the entries of the graph alone. -/
inductive Means : ResolverCall → Indentation → Prop
  /-- The root stands at the margin. -/
  | root {t : Token} : l.graph.root = some t.index → Means (.resolve t) .none
  /-- What hangs on nothing has the indentation of its own blanks. -/
  | loose {t : Token} {i : Indentation} : l.Loose t → l.actual t = .ok i → Means (.resolve t) i
  | relative {t base : Token} {e : OffsetEntry} {i : Indentation} : l.BasedOn t e base →
      e.kind = .relative → Means (.anchor base) i → Means (.resolve t) (l.unit.indent i e.weight)
  | same {t base : Token} {e : OffsetEntry} {i : Indentation} : l.BasedOn t e base →
      e.kind = .same → Means (.anchor base) i → Means (.resolve t) i
  | align {t base : Token} {e : OffsetEntry} {i : Indentation} : l.BasedOn t e base →
      e.kind = .align → Means (.visual base) i → Means (.resolve t) i
  /-- The line of a token is indented as its head should be, if the graph is in charge of it. -/
  | checked {t head : Token} {i : Indentation} : l.graph.heads.headOf t = .ok head →
      l.isChecked head = .ok true → Means (.resolve head) i → Means (.anchor t) i
  | unchecked {t head : Token} {i : Indentation} : l.graph.heads.headOf t = .ok head →
      l.isChecked head = .ok false → l.actual head = .ok i → Means (.anchor t) i
  /-- A token stands as far from the indentation of its line as in the source. -/
  | level {t head : Token} {i : Indentation} : l.graph.heads.headOf t = .ok head →
      head.line = t.line → Means (.anchor t) i →
      Means (.visual t) (l.unit.shift i ((t.column : Int) - head.column))
  /-- A token on a line that continues another one stands where that line begins. -/
  | apart {t head : Token} {i : Indentation} : l.graph.heads.headOf t = .ok head →
      head.line ≠ t.line → Means (.anchor t) i → Means (.visual t) i

/-- The call that the answer to a call is taken from. -/
inductive Asks : ResolverCall → ResolverCall → Prop
  | anchor {t base : Token} {e : OffsetEntry} : l.BasedOn t e base →
      e.kind = .relative ∨ e.kind = .same → Asks (.resolve t) (.anchor base)
  | visual {t base : Token} {e : OffsetEntry} : l.BasedOn t e base →
      e.kind = .align → Asks (.resolve t) (.visual base)
  | resolve {t head : Token} : l.graph.heads.headOf t = .ok head →
      l.isChecked head = .ok true → Asks (.anchor t) (.resolve head)
  | line {t : Token} : Asks (.visual t) (.anchor t)

/-- A token is one of the document. -/
def Owns (t : Token) : Prop :=
  l.document.tokens[t.index]? = some t

variable {l}

theorem BasedOn.unique {t base base' : Token} {e e' : OffsetEntry} (h : l.BasedOn t e base)
    (h' : l.BasedOn t e' base') : e = e' ∧ base = base' := by
  obtain rfl := Option.some.inj (Except.ok.inj (h.entry.symm.trans h'.entry))
  exact ⟨rfl, Except.ok.inj (h.onBase.symm.trans h'.onBase)⟩

theorem Loose.not_basedOn {t base : Token} {e : OffsetEntry} (h : l.Loose t) :
    ¬ l.BasedOn t e base := by
  intro hb
  obtain ⟨entry, hentry, hpinned⟩ := h.entry
  obtain rfl := Except.ok.inj (hentry.symm.trans hb.entry)
  exact hb.kind (hpinned e rfl)

theorem Asks.unique {c d d' : ResolverCall} (h : l.Asks c d) (h' : l.Asks c d') : d = d' := by
  cases h with
  | anchor hb hk =>
    cases h' with
    | anchor hb' => rw [(hb.unique hb').2]
    | visual hb' hk' =>
      obtain ⟨rfl, -⟩ := hb.unique hb'
      rw [hk'] at hk
      rcases hk with hk | hk <;> cases hk
  | visual hb hk =>
    cases h' with
    | visual hb' => rw [(hb.unique hb').2]
    | anchor hb' hk' =>
      obtain ⟨rfl, -⟩ := hb.unique hb'
      rw [hk] at hk'
      rcases hk' with hk' | hk' <;> cases hk'
  | resolve hh =>
    cases h' with
    | resolve hh' => rw [Except.ok.inj (hh.symm.trans hh')]
  | line =>
    cases h'
    rfl

/-- A call has one meaning. -/
theorem Means.unique {c : ResolverCall} {i j : Indentation} (h : l.Means c i) (h' : l.Means c j) :
    i = j := by
  induction h generalizing j with
  | root hr =>
    cases h' with
    | root => rfl
    | loose hl => exact absurd hr hl.below
    | relative hb | same hb | align hb => exact absurd hr hb.below
  | loose hl ha =>
    cases h' with
    | root hr => exact absurd hr hl.below
    | loose _ ha' => exact Except.ok.inj (ha.symm.trans ha')
    | relative hb | same hb | align hb => exact absurd hb hl.not_basedOn
  | relative hb hk _ ih =>
    cases h' with
    | root hr => exact absurd hr hb.below
    | loose hl => exact absurd hb hl.not_basedOn
    | relative hb' _ hm =>
      obtain ⟨rfl, rfl⟩ := hb.unique hb'
      rw [ih hm]
    | same hb' hk' | align hb' hk' =>
      obtain ⟨rfl, -⟩ := hb.unique hb'
      cases hk.symm.trans hk'
  | same hb hk _ ih =>
    cases h' with
    | root hr => exact absurd hr hb.below
    | loose hl => exact absurd hb hl.not_basedOn
    | same hb' _ hm =>
      obtain ⟨rfl, rfl⟩ := hb.unique hb'
      exact ih hm
    | relative hb' hk' | align hb' hk' =>
      obtain ⟨rfl, -⟩ := hb.unique hb'
      cases hk.symm.trans hk'
  | align hb hk _ ih =>
    cases h' with
    | root hr => exact absurd hr hb.below
    | loose hl => exact absurd hb hl.not_basedOn
    | align hb' _ hm =>
      obtain ⟨rfl, rfl⟩ := hb.unique hb'
      exact ih hm
    | relative hb' hk' | same hb' hk' =>
      obtain ⟨rfl, -⟩ := hb.unique hb'
      cases hk.symm.trans hk'
  | checked hh hc _ ih =>
    cases h' with
    | checked hh' _ hm =>
      obtain rfl := Except.ok.inj (hh.symm.trans hh')
      exact ih hm
    | unchecked hh' hc' =>
      obtain rfl := Except.ok.inj (hh.symm.trans hh')
      cases hc.symm.trans hc'
  | unchecked hh hc ha =>
    cases h' with
    | checked hh' hc' =>
      obtain rfl := Except.ok.inj (hh.symm.trans hh')
      cases hc.symm.trans hc'
    | unchecked hh' _ ha' =>
      obtain rfl := Except.ok.inj (hh.symm.trans hh')
      exact Except.ok.inj (ha.symm.trans ha')
  | level hh hline _ ih =>
    cases h' with
    | level hh' _ hm =>
      obtain rfl := Except.ok.inj (hh.symm.trans hh')
      rw [ih hm]
    | apart hh' hne =>
      obtain rfl := Except.ok.inj (hh.symm.trans hh')
      exact absurd hline hne
  | apart hh hne _ ih =>
    cases h' with
    | level hh' hline =>
      obtain rfl := Except.ok.inj (hh.symm.trans hh')
      exact absurd hline hne
    | apart _ _ hm => exact ih hm

/-- A call does not lead back to itself, if the call that it asks for does not. -/
theorem acyclic_of_asks {c : ResolverCall} (h : ∀ d, l.Asks c d → ¬ Relation.TransGen l.Asks d d) :
    ¬ Relation.TransGen l.Asks c c := by
  intro hcycle
  obtain ⟨d, hd, hback⟩ := Relation.TransGen.head'_iff.mp hcycle
  exact h d hd (.tail' hback hd)

/-- **A call that means something does not lead back to itself.** -/
theorem Means.acyclic {c : ResolverCall} {i : Indentation} (h : l.Means c i) :
    ¬ Relation.TransGen l.Asks c c := by
  have hof {c d : ResolverCall} (hd : l.Asks c d) (ih : ¬ Relation.TransGen l.Asks d d) :
      ¬ Relation.TransGen l.Asks c c :=
    acyclic_of_asks fun d' hd' => hd.unique hd' ▸ ih
  induction h with
  | root hr =>
    refine acyclic_of_asks fun d hd => ?_
    cases hd with
    | anchor hb | visual hb => exact absurd hr hb.below
  | loose hl =>
    refine acyclic_of_asks fun d hd => ?_
    cases hd with
    | anchor hb | visual hb => exact absurd hb hl.not_basedOn
  | relative hb hk _ ih => exact hof (.anchor hb (.inl hk)) ih
  | same hb hk _ ih => exact hof (.anchor hb (.inr hk)) ih
  | align hb hk _ ih => exact hof (.visual hb hk) ih
  | checked hh hc _ ih => exact hof (.resolve hh hc) ih
  | unchecked hh hc =>
    refine acyclic_of_asks fun d hd => ?_
    cases hd with
    | resolve hh' hc' =>
      obtain rfl := Except.ok.inj (hh.symm.trans hh')
      cases hc.symm.trans hc'
  | level _ _ _ ih | apart _ _ _ ih => exact hof .line ih

/-! ## What replies are like -/

/-- What is found already is right. -/
def Faithful (l : Layout) (memo : Memo) : Prop :=
  ∀ (t : Token) (i : Indentation), l.Owns t →
    memo.lookup t.index = some i → l.Means (.resolve t) i

theorem faithful_nil : l.Faithful [] := by simp [Faithful]

theorem Faithful.cons {memo : Memo} (h : l.Faithful memo) {t : Token} {i : Indentation}
    (ht : l.Owns t) (hi : l.Means (.resolve t) i) : l.Faithful ((t.index, i) :: memo) := by
  intro u j hu hj
  rw [List.lookup_cons] at hj
  split at hj
  · next heq =>
    have heq : u.index = t.index := by simpa using heq
    rw [Owns, heq, ht] at hu
    cases hu
    cases hj
    exact hi
  · exact h u j hu hj

/-- A reply gives the meaning of a call and leaves a faithful resolver in which the same heads wait.
A failure leaves the resolver alone. -/
structure Serves (l : Layout) (s : Resolver) (c : ResolverCall) (r : Reply) : Prop where
  means : ∀ i, r.1 = .ok i → l.Means c i
  failed : ∀ fault, r.1 = .error fault → r.2 = s
  active : r.2.active = s.active
  faithful : l.Faithful r.2.memo

/-- A reply that leaves the resolver alone. -/
theorem serves_same {s : Resolver} {c : ResolverCall} {answer : Except Fault Indentation}
    (hs : l.Faithful s.memo) (h : ∀ i, answer = .ok i → l.Means c i) :
    l.Serves s c (answer, s) :=
  ⟨h, fun _ _ => rfl, rfl, hs⟩

theorem serves_error {s : Resolver} {c : ResolverCall} (hs : l.Faithful s.memo) (fault : Fault) :
    l.Serves s c (.error fault, s) :=
  serves_same hs fun _ h => by cases h

/-- A reply that is made from another one by a rule. -/
theorem Serves.map {s : Resolver} {c d : ResolverCall} {r : Reply} (h : l.Serves s d r)
    {rule : Indentation → Indentation} (hrule : ∀ i, l.Means d i → l.Means c (rule i)) :
    l.Serves s c (r.1.map rule, r.2) := by
  obtain ⟨answer, s'⟩ := r
  refine ⟨fun i hi => ?_, fun fault hfault => ?_, h.active, h.faithful⟩
  · cases answer with
    | error fault => cases hi
    | ok j =>
      cases hi
      exact hrule j (h.means j rfl)
  · cases answer with
    | error fault' => exact h.failed fault' rfl
    | ok j => cases hfault

theorem Serves.imp {s : Resolver} {c d : ResolverCall} {r : Reply} (h : l.Serves s d r)
    (himp : ∀ i, l.Means d i → l.Means c i) : l.Serves s c r :=
  ⟨fun i hi => himp i (h.means i hi), h.failed, h.active, h.faithful⟩

theorem serves_stored {s : Resolver} (hs : l.Faithful s.memo) {t : Token} (ht : l.Owns t)
    {i : Indentation} (hi : l.Means (.resolve t) i) :
    l.Serves s (.resolve t) (s.store t.index (.ok i)) := by
  refine ⟨fun j hj => ?_, fun _ hf => (by cases hf), rfl, hs.cons ht hi⟩
  cases hj
  exact hi

/-- A head that does not wait any more. -/
theorem Serves.store {s : Resolver} {t : Token} {r : Reply} (ht : l.Owns t)
    (h : l.Serves (s.push t.index) (.resolve t) r) :
    l.Serves s (.resolve t) (r.2.pop.store t.index r.1) := by
  obtain ⟨answer, s'⟩ := r
  have hactive : s'.pop.active = s.active := by
    rw [Resolver.pop, h.active, Resolver.push, List.dropLast_concat]
  cases answer with
  | error fault =>
    refine ⟨fun _ hi => (by cases hi), fun _ _ => ?_, hactive, h.faithful⟩
    have hs' : s' = s.push t.index := h.failed fault rfl
    rw [Resolver.store, hs', Resolver.pop_push]
  | ok i =>
    refine ⟨fun j hj => ?_, fun _ hf => (by cases hf), hactive,
      h.faithful.cons ht (h.means i rfl)⟩
    cases hj
    exact h.means i rfl

/-- A layout of tokens in their order, with a graph that calls on it can have left. -/
structure Sound (l : Layout) : Prop where
  indexed : Indexed l.document.tokens
  graph : l.graph.Sound l.document.tokens

theorem Sound.owns_of_token (hl : l.Sound) {i : Nat} {t : Token}
    (h : l.graph.heads.token i = .ok t) : l.Owns t := by
  unfold Heads.token at h
  split at h
  · next ht =>
    cases h
    rw [hl.graph.heads] at ht
    rwa [Owns, hl.indexed i t ht]
  · cases h

theorem Sound.owns_of_headOf (hl : l.Sound) {t head : Token}
    (h : l.graph.heads.headOf t = .ok head) : l.Owns head := by
  unfold Heads.headOf at h
  split at h
  · cases h
  · split at h
    · exact hl.owns_of_token h
    · cases h

theorem Sound.owns_of_asks (hl : l.Sound) {c d : ResolverCall} (h : l.Asks c d)
    (hc : l.Owns c.token) : l.Owns d.token := by
  cases h with
  | anchor hb | visual hb => exact hl.owns_of_token hb.onBase
  | resolve h => exact hl.owns_of_headOf h
  | line => exact hc

mutual

theorem serves_resolve (hl : l.Sound) {s : Resolver} (hs : l.Faithful s.memo) {t : Token}
    (ht : l.Owns t) : l.Serves s (.resolve t) (l.resolveIn s t) := by
  unfold resolveIn
  split
  · next i hi =>
    refine serves_same hs fun j hj => ?_
    cases hj
    exact hs t i ht hi
  · split
    · exact serves_error hs _
    · next hactive =>
      split
      · next hroot => exact serves_stored hs ht (.root hroot)
      · next hroot =>
        split
        · exact serves_error hs _
        · next entry hentry =>
          have hlt := idle_push_lt hentry hactive
          exact (serves_follow hl (s := s.push t.index) hs hroot hentry).store ht
termination_by (idle l.graph.entries.size s.active, 0)

theorem serves_follow (hl : l.Sound) {s : Resolver} (hs : l.Faithful s.memo) {t : Token}
    (hroot : l.graph.root ≠ some t.index) {entry : Option OffsetEntry}
    (hentry : l.graph.entry t.index = .ok entry) :
    l.Serves s (.resolve t) (l.followIn s t entry) := by
  unfold followIn
  split
  · exact serves_same hs fun i hi => .loose ⟨hroot, none, hentry, by simp⟩ hi
  · next e =>
    split
    · next hpinned =>
      exact serves_same hs fun i hi => .loose ⟨hroot, _, hentry, by simp [hpinned]⟩ hi
    · next hkind =>
      split
      · exact serves_error hs _
      · next base hbase =>
        have hb : l.BasedOn t e base := ⟨hroot, hentry, hkind, hbase⟩
        split
        · next hrel => exact (serves_anchor hl hs base).map fun i hi => .relative hb hrel hi
        · next hsame => exact (serves_anchor hl hs base).imp fun i hi => .same hb hsame hi
        · next halign => exact (serves_visual hl hs base).imp fun i hi => .align hb halign hi
        · exact serves_error hs _
termination_by (idle l.graph.entries.size s.active, 3)

theorem serves_anchor (hl : l.Sound) {s : Resolver} (hs : l.Faithful s.memo) (t : Token) :
    l.Serves s (.anchor t) (l.anchorIn s t) := by
  unfold anchorIn
  split
  · exact serves_error hs _
  · next head hhead =>
    split
    · exact serves_error hs _
    · next hc =>
      exact (serves_resolve hl hs (hl.owns_of_headOf hhead)).imp fun i hi => .checked hhead hc hi
    · next hc => exact serves_same hs fun i hi => .unchecked hhead hc hi
termination_by (idle l.graph.entries.size s.active, 1)

theorem serves_visual (hl : l.Sound) {s : Resolver} (hs : l.Faithful s.memo) (t : Token) :
    l.Serves s (.visual t) (l.visualIn s t) := by
  unfold visualIn
  split
  · exact serves_error hs _
  · next head hhead =>
    refine (serves_anchor hl hs t).map fun i hi => ?_
    split
    · next hline => exact .level hhead hline hi
    · next hline => exact .apart hhead hline hi
termination_by (idle l.graph.entries.size s.active, 2)

end

/-! ## Calls that mean something are answered -/

/-- No head that waits is asked for on the way. -/
def Avoids (l : Layout) (s : Resolver) (c : ResolverCall) : Prop :=
  ∀ t, Relation.ReflTransGen l.Asks c (.resolve t) → t.index ∉ s.active

theorem Avoids.asked {s : Resolver} {c d : ResolverCall} (h : l.Avoids s c) (hd : l.Asks c d) :
    l.Avoids s d :=
  fun t ht => h t (.head hd ht)

/-- A head that waits is not asked for again. -/
theorem Avoids.push (hl : l.Sound) {s : Resolver} {t : Token} {d : ResolverCall} {i : Indentation}
    (h : l.Avoids s (.resolve t)) (hd : l.Asks (.resolve t) d) (ht : l.Owns t)
    (hi : l.Means (.resolve t) i) : l.Avoids (s.push t.index) d := by
  have howns : ∀ {c c'}, Relation.ReflTransGen l.Asks c c' → l.Owns c.token → l.Owns c'.token := by
    intro c c' hcc' hc
    induction hcc' with
    | refl => exact hc
    | tail _ hask ih => exact hl.owns_of_asks hask ih
  intro u hu hmem
  rcases List.mem_append.mp hmem with hmem | hmem
  · exact h u (.head hd hu) hmem
  · have hown : l.Owns u := howns hu (hl.owns_of_asks hd ht)
    rw [Owns, List.mem_singleton.mp hmem, ht] at hown
    cases hown
    exact hi.acyclic (.head' hd hu)

theorem store_fst (s : Resolver) (index : Nat) (answer : Except Fault Indentation) :
    (s.store index answer).1 = answer := by
  cases answer <;> rfl

/-- A head that has an entry and is not known is answered by its entry. -/
theorem resolveIn_of_followIn {s : Resolver} (hs : l.Faithful s.memo) {t : Token} {i : Indentation}
    (ht : l.Owns t) (hi : l.Means (.resolve t) i) (havoids : l.Avoids s (.resolve t))
    (hroot : l.graph.root ≠ some t.index) {entry : Option OffsetEntry}
    (hentry : l.graph.entry t.index = .ok entry)
    (h : (l.followIn (s.push t.index) t entry).1 = .ok i) : (l.resolveIn s t).1 = .ok i := by
  unfold resolveIn
  split
  · next j hj => rw [(hs t j ht hj).unique hi]
  · rw [dif_neg (havoids t .refl), if_neg hroot]
    split
    · next fault hf => cases hf.symm.trans hentry
    · next entry' he =>
      obtain rfl := Except.ok.inj (he.symm.trans hentry)
      rw [store_fst, h]

/-- A head that asks for another call is answered if that call is, since it does not lead back. -/
theorem resolveIn_of_asks (hl : l.Sound) {s : Resolver} (hs : l.Faithful s.memo) {t base : Token}
    {e : OffsetEntry} {i j : Indentation} {d : ResolverCall} (ht : l.Owns t)
    (hi : l.Means (.resolve t) i) (havoids : l.Avoids s (.resolve t)) (hb : l.BasedOn t e base)
    (hd : l.Asks (.resolve t) d)
    (hanswered : ∀ {s : Resolver}, l.Faithful s.memo → l.Owns d.token → l.Avoids s d →
      (l.reply s d).1 = .ok j)
    (h : (l.reply (s.push t.index) d).1 = .ok j →
      (l.followIn (s.push t.index) t (some e)).1 = .ok i) :
    (l.resolveIn s t).1 = .ok i := by
  have hbase : (l.reply (s.push t.index) d).1 = .ok j :=
    hanswered hs (hl.owns_of_asks hd ht) (havoids.push hl hd ht hi)
  exact resolveIn_of_followIn hs ht hi havoids hb.below hb.entry (h hbase)

/-- **A call that means something is answered.** -/
theorem Means.answered (hl : l.Sound) {c : ResolverCall} {i : Indentation} (h : l.Means c i)
    {s : Resolver} (hs : l.Faithful s.memo) (hc : l.Owns c.token) (havoids : l.Avoids s c) :
    (l.reply s c).1 = .ok i := by
  induction h generalizing s with
  | @root t hroot =>
    rw [reply]
    unfold resolveIn
    split
    · next j hj => rw [(hs t j hc hj).unique (.root hroot)]
    · rw [dif_neg (havoids t .refl), if_pos hroot]
      rfl
  | @loose t i hloose hactual =>
    obtain ⟨entry, hentry, hpinned⟩ := hloose.entry
    refine resolveIn_of_followIn hs hc (.loose hloose hactual) havoids hloose.below hentry ?_
    cases entry with
    | none => simp only [followIn, hactual]
    | some e => simp only [followIn, if_pos (hpinned e rfl), hactual]
  | @relative t base e i hb hk hi ih =>
    refine resolveIn_of_asks hl hs hc (.relative hb hk hi) havoids hb (.anchor hb (.inl hk)) ih
      fun hbase => ?_
    simp only [reply] at hbase
    simp only [followIn, hb.onBase, hk, reduceCtorEq, if_false, hbase]
    rfl
  | @same t base e i hb hk hi ih =>
    refine resolveIn_of_asks hl hs hc (.same hb hk hi) havoids hb (.anchor hb (.inr hk)) ih
      fun hbase => ?_
    simp only [reply] at hbase
    simp only [followIn, hb.onBase, hk, reduceCtorEq, if_false, hbase]
  | @align t base e i hb hk hi ih =>
    refine resolveIn_of_asks hl hs hc (.align hb hk hi) havoids hb (.visual hb hk) ih
      fun hbase => ?_
    simp only [reply] at hbase
    simp only [followIn, hb.onBase, hk, reduceCtorEq, if_false, hbase]
  | @checked t head i hh hchecked hi ih =>
    have hd : l.Asks (.anchor t) (.resolve head) := .resolve hh hchecked
    have hhead := ih hs (hl.owns_of_asks hd hc) (havoids.asked hd)
    simp only [reply] at hhead
    simp only [reply, anchorIn, hh, hchecked, hhead]
  | @unchecked t head i hh hchecked hi => simp only [reply, anchorIn, hh, hchecked, hi]
  | @level t head i hh hline hi ih =>
    have hanchor := ih hs hc (havoids.asked .line)
    simp only [reply] at hanchor
    simp only [reply, visualIn, hh, hanchor, Except.map, if_pos hline]
  | @apart t head i hh hline hi ih =>
    have hanchor := ih hs hc (havoids.asked .line)
    simp only [reply] at hanchor
    simp only [reply, visualIn, hh, hanchor, Except.map, if_neg hline]

end Layout

/-! ## Replies without a state that stays -/

/-- What a resolver is left like by a call that either adds to its memo or fails. -/
def Resolver.whole (s : Resolver) : Except Fault (Indentation × Memo) → Reply
  | .ok (i, memo) => (.ok i, { s with memo := memo })
  | .error fault => (.error fault, s)

namespace Layout

/-- The answer to a call with a memo, and the memo after it. -/
def answer (l : Layout) (memo : Memo) : ResolverCall → Except Fault (Indentation × Memo)
  | .resolve t => l.resolve memo t
  | .anchor t => l.anchor memo t
  | .visual t => l.visual memo t

variable {l : Layout}

theorem Sound.kind (hl : l.Sound) {i : Nat} {e : OffsetEntry}
    (h : l.graph.entry i = .ok (some e)) : e.kind ∈ OffsetKind.all := by
  unfold OffsetGraph.entry at h
  split at h
  · next he =>
    cases h
    exact hl.graph.kind i e he
  · cases h

/-- A head is answered by its entry as by the step of its chain. -/
theorem followIn_eq (hl : l.Sound) (s : Resolver) {t : Token} {entry : Option OffsetEntry}
    (hentry : l.graph.entry t.index = .ok entry) :
    l.followIn s t entry = match l.link t with
      | .error fault => (.error fault, s)
      | .ok (.settled i) => (.ok i, s)
      | .ok (.hop e base other) =>
        ((l.resolveIn s other).1.bind (l.adjust e base other), (l.resolveIn s other).2) := by
  unfold followIn link
  simp only [hentry, bind, Except.bind]
  cases entry with
  | none => cases l.actual t <;> rfl
  | some e =>
    by_cases hpinned : e.kind = .pinned
    · simp only [if_pos hpinned]
      cases l.actual t <;> rfl
    simp only [if_neg hpinned]
    have hkind : e.kind = .relative ∨ e.kind = .same ∨ e.kind = .align := by
      have hknown := hl.kind hentry
      simp only [OffsetKind.all, List.mem_cons, List.not_mem_nil, or_false] at hknown
      tauto
    rcases hbase : l.graph.heads.token e.base with fault | base
    · rfl
    rcases hother : l.graph.heads.headOf base with fault | other
    · rcases hkind with hk | hk | hk <;>
        simp only [hk, visualIn, anchorIn, hother, Except.map]
    rcases hchecked : l.isChecked other with fault | checked
    · rcases hkind with hk | hk | hk <;>
        simp only [hk, visualIn, anchorIn, hother, hchecked, Except.map]
    cases checked with
    | true =>
      rcases hkind with hk | hk | hk <;>
        simp only [hk, visualIn, anchorIn, hother, hchecked, if_true] <;>
        rcases l.resolveIn s other with ⟨fault | i, s'⟩ <;>
        simp [Except.map, adjust, hk]
    | false =>
      rcases hactual : l.actual other with fault | i
      · rcases hkind with hk | hk | hk <;>
          simp [hk, visualIn, anchorIn, hother, hchecked, hactual, Except.map]
      · rcases hkind with hk | hk | hk <;>
          simp [hk, visualIn, anchorIn, hother, hchecked, hactual, Except.map, adjust]

/-- A head that is not known, does not wait and is not the root is answered by its step. -/
theorem resolveIn_of_link (hl : l.Sound) {s : Resolver} {t : Token}
    (hnone : s.memo.lookup t.index = none) (hactive : t.index ∉ s.active)
    (hroot : l.graph.root ≠ some t.index) :
    l.resolveIn s t = match l.link t with
      | .error fault => (.error fault, s)
      | .ok (.settled i) => s.store t.index (.ok i)
      | .ok (.hop e base other) =>
        (l.resolveIn (s.push t.index) other).2.pop.store t.index
          ((l.resolveIn (s.push t.index) other).1.bind (l.adjust e base other)) := by
  conv_lhs => unfold resolveIn
  simp only [hnone, dif_neg hactive, if_neg hroot]
  split
  · next fault he =>
    rw [link, he]
    rfl
  · next entry he =>
    rw [followIn_eq hl _ he]
    rcases l.link t with fault | ⟨i⟩ | ⟨e, base, other⟩ <;>
      simp only [Resolver.store, Resolver.pop_push]

/-- A step to another head is over the entry of a token that is not pinned. -/
theorem entry_of_hop {t base other : Token} {e : OffsetEntry}
    (h : l.link t = .ok (.hop e base other)) :
    l.graph.entry t.index = .ok (some e) ∧ e.kind ≠ .pinned := by
  obtain ⟨entry, hentry, h⟩ := bind_eq_ok.mp h
  cases entry with
  | none =>
    obtain ⟨i, -, h⟩ := bind_eq_ok.mp h
    cases h
  | some e' =>
    by_cases hpinned : e'.kind = .pinned
    · simp only [if_pos hpinned] at h
      obtain ⟨i, -, h⟩ := bind_eq_ok.mp h
      cases h
    · simp only [if_neg hpinned] at h
      obtain ⟨base', -, h⟩ := bind_eq_ok.mp h
      obtain ⟨other', -, h⟩ := bind_eq_ok.mp h
      obtain ⟨checked, -, h⟩ := bind_eq_ok.mp h
      cases checked with
      | true =>
        cases h
        exact ⟨hentry, hpinned⟩
      | false =>
        obtain ⟨i, -, h⟩ := bind_eq_ok.mp h
        obtain ⟨j, -, h⟩ := bind_eq_ok.mp h
        cases h

/-- **What stays in a resolver is what the memo is given.** -/
theorem resolveIn_eq (hl : l.Sound) (memo : Memo) (active : List Nat) (t : Token) :
    l.resolveIn ⟨memo, active⟩ t =
      Resolver.whole ⟨memo, active⟩ (l.resolveFrom memo active t) := by
  fun_induction resolveFrom l memo active t with
  | case1 active t i hi => simp only [resolveIn, hi, Resolver.whole]
  | case2 active t hnone hactive =>
    unfold resolveIn
    simp only [hnone, dif_pos hactive, Resolver.whole]
  | case3 active t hnone hactive hroot =>
    unfold resolveIn
    simp only [hnone, dif_neg hactive, if_pos hroot, Resolver.whole, Resolver.store]
  | case4 active t hnone hactive hroot fault hlink =>
    rw [resolveIn_of_link hl hnone hactive hroot, hlink]
    rfl
  | case5 active t hnone hactive hroot i hlink =>
    rw [resolveIn_of_link hl hnone hactive hroot, hlink]
    rfl
  | case6 active t hnone hactive hroot e base other hlink ih =>
    rw [resolveIn_of_link hl hnone hactive hroot, hlink]
    simp only [Resolver.push, ih]
    rcases l.resolveFrom memo (active ++ [t.index]) other with fault | ⟨i, memo'⟩
    · simp [Resolver.whole, Resolver.store, Resolver.pop, Except.bind, bind]
    · obtain ⟨hentry, hpinned⟩ := entry_of_hop hlink
      have hknown : ∀ label, e.kind ≠ .unknown label := by
        intro label hlabel
        have := hl.kind hentry
        simp [hlabel, OffsetKind.all] at this
      obtain ⟨j, hj⟩ := adjust_ok (l := l) hknown hpinned base other i
      simp [Resolver.whole, Resolver.store, Resolver.pop, Except.bind, bind, hj]

/-- **A reply is the answer with the memo, and nothing else of the resolver changes.** -/
theorem reply_eq (hl : l.Sound) (memo : Memo) (c : ResolverCall) :
    l.reply ⟨memo, []⟩ c = Resolver.whole ⟨memo, []⟩ (l.answer memo c) := by
  have hanchor (t : Token) :
      l.anchorIn ⟨memo, []⟩ t = Resolver.whole ⟨memo, []⟩ (l.anchor memo t) := by
    unfold anchorIn anchor
    rcases l.graph.heads.headOf t with fault | head
    · rfl
    simp only [bind, Except.bind]
    rcases l.isChecked head with fault | checked
    · rfl
    cases checked with
    | true => exact resolveIn_eq hl memo [] head
    | false =>
      rcases hactual : l.actual head with fault | i <;> simp [Resolver.whole]
  cases c with
  | resolve t => exact resolveIn_eq hl memo [] t
  | anchor t => exact hanchor t
  | visual t =>
    simp only [reply, answer, visualIn, visual, hanchor]
    rcases l.graph.heads.headOf t with fault | head
    · rfl
    simp only [bind, Except.bind]
    rcases l.anchor memo t with fault | ⟨i, memo'⟩
    · rfl
    · simp only [Resolver.whole, Except.map]
      split <;> rfl

/-! ## Levels along a chain -/

/-- A chain of hops that go a number of levels deeper or stay as deep, from a call to one that means
an indentation. -/
inductive Hops (l : Layout) : ResolverCall → (levels : List Int) → Indentation → Prop
  | stop {c : ResolverCall} {b : Indentation} : l.Means c b → Hops l c [] b
  | line {t head : Token} {levels : List Int} {b : Indentation} :
      l.graph.heads.headOf t = .ok head → l.isChecked head = .ok true →
      Hops l (.resolve head) levels b → Hops l (.anchor t) levels b
  | relative {t base : Token} {e : OffsetEntry} {levels : List Int} {b : Indentation} :
      l.BasedOn t e base → e.kind = .relative → Hops l (.anchor base) levels b →
      Hops l (.resolve t) (e.weight :: levels) b
  | same {t base : Token} {e : OffsetEntry} {levels : List Int} {b : Indentation} :
      l.BasedOn t e base → e.kind = .same → Hops l (.anchor base) levels b →
      Hops l (.resolve t) levels b

/-- **A chain adds up its levels** and leaves the alignment at its end as it is. -/
theorem means_of_hops {c : ResolverCall} {levels : List Int} {b : Indentation}
    (h : l.Hops c levels b) :
    l.Means c ⟨b.width + l.unit.size * levels.sum, b.align⟩ := by
  induction h with
  | stop hb => simpa using hb
  | line hh hc _ ih => exact .checked hh hc ih
  | @relative t base e levels b hb hk _ ih =>
    have hmeans := Means.relative hb hk ih
    rw [IndentUnit.indent] at hmeans
    convert hmeans using 2
    simp only [List.sum_cons, Int.mul_add, Int.mul_comm _ e.weight]
    omega
  | same hb hk _ ih => exact .same hb hk ih

/-! ## Any calls in turn -/

theorem serves_reply (hl : l.Sound) {s : Resolver} (hs : l.Faithful s.memo) {c : ResolverCall}
    (hc : l.Owns c.token) : l.Serves s c (l.reply s c) := by
  cases c with
  | resolve t => exact serves_resolve hl hs hc
  | anchor t => exact serves_anchor hl hs t
  | visual t => exact serves_visual hl hs t

/-- Between calls no head waits, and what is found is right. -/
theorem after_spec (hl : l.Sound) {calls : List ResolverCall}
    (hcalls : ∀ c ∈ calls, l.Owns c.token) :
    (l.after .fresh calls).active = [] ∧ l.Faithful (l.after .fresh calls).memo := by
  suffices ∀ s : Resolver, s.active = [] → l.Faithful s.memo →
      (l.after s calls).active = [] ∧ l.Faithful (l.after s calls).memo from
    this .fresh rfl faithful_nil
  induction calls with
  | nil => exact fun s hactive hs => ⟨hactive, hs⟩
  | cons c rest ih =>
    obtain ⟨hc, hrest⟩ := List.forall_mem_cons.mp hcalls
    intro s hactive hs
    have hserves := serves_reply hl hs hc
    exact ih hrest _ (hserves.active.trans hactive) hserves.faithful

/-- **A resolver with a memo means what it means without.** Take any calls in turn on one resolver,
with tokens of the document, whether they fail or not. The next call is answered if and only if it
has a meaning by the entries of the graph alone, and then with that meaning; a call that fails
leaves the memo and the heads that wait as they were, and between calls no head waits. So the levels
along a chain add up. And each reply is that of the memo that is handed on from call to call. -/
theorem reply_iff_means (hl : l.Sound) (calls : List ResolverCall)
    (hcalls : ∀ c ∈ calls, l.Owns c.token) :
    let s := l.after .fresh calls
    s.active = [] ∧ ∀ c : ResolverCall, l.Owns c.token →
      (∀ i, (l.reply s c).1 = .ok i ↔ l.Means c i) ∧
      (∀ fault, (l.reply s c).1 = .error fault → (l.reply s c).2 = s) ∧
      (∀ levels b, l.Hops c levels b →
        (l.reply s c).1 = .ok ⟨b.width + l.unit.size * levels.sum, b.align⟩) ∧
      l.reply s c = s.whole (l.answer s.memo c) := by
  intro s
  obtain ⟨hactive, hs⟩ := after_spec hl hcalls
  refine ⟨hactive, fun c hc => ?_⟩
  have hserves := serves_reply hl hs hc
  have hanswered {i : Indentation} (hi : l.Means c i) : (l.reply s c).1 = .ok i := by
    refine hi.answered hl hs hc fun t _ hmem => ?_
    rw [hactive] at hmem
    cases hmem
  refine ⟨fun i => ⟨hserves.means i, hanswered⟩, hserves.failed,
    fun levels b hb => hanswered (means_of_hops hb), ?_⟩
  have hfresh : s = ⟨s.memo, []⟩ := by rw [← hactive]
  rw [hfresh]
  exact reply_eq hl s.memo c

/-- Five names, each on a line of its own, the first of them after a blank. -/
def fiveLines : TokenStream where
  tokens := #[⟨0, .name, ['a'], 1, 2, 1, 1⟩, ⟨1, .name, ['b'], 3, 4, 2, 0⟩,
    ⟨2, .name, ['c'], 5, 6, 3, 0⟩, ⟨3, .name, ['d'], 7, 8, 4, 0⟩, ⟨4, .name, ['e'], 9, 10, 5, 0⟩]
  indexed := by
    rintro (_ | _ | _ | _ | _ | i) t ht
    all_goals first | (cases ht; rfl) | simp at ht

/-- The third name hangs on the second, and this one on the first. The last two hang on each
other. -/
def fiveSteps : List GraphStep := [
  .on 0 (.declare (.own 1) (.own 0) .relative 1),
  .on 0 (.declare (.own 2) (.own 1) .relative 1),
  .on 0 (.declare (.own 3) (.own 4) .same 0),
  .on 0 (.declare (.own 4) (.own 3) .same 0)]

/-- A call that runs into a cycle, and then one that adds up two levels from a line that is not
checked. -/
theorem reply_iff_means_cycle :
    ∃ (l : Layout) (c d : Token), l.Sound ∧ l.Owns c ∧ l.Owns d ∧
      (l.reply .fresh (.resolve d)).1 = .error (.cycle [3, 4, 3]) ∧
      l.after .fresh [.resolve d] = .fresh ∧ l.Hops (.resolve c) [1, 1] ⟨1, 0⟩ ∧
      (l.reply (l.after .fresh [.resolve d]) (.resolve c)).1 = .ok ⟨5, 0⟩ := by
  let graphs := graphsAfter [.empty (.ofTokens fiveLines.tokens)] fiveSteps
  let g : OffsetGraph := (graphs[0]?).get (by decide +kernel)
  let l : Layout :=
    ⟨g, { text := " a\nb\nc\nd\ne".toList, tokens := fiveLines.tokens, nodes := [] },
      ⟨.spaces 2, false⟩⟩
  let a : Token := ⟨0, .name, ['a'], 1, 2, 1, 1⟩
  let b : Token := ⟨1, .name, ['b'], 3, 4, 2, 0⟩
  let c : Token := ⟨2, .name, ['c'], 5, 6, 3, 0⟩
  let d : Token := ⟨3, .name, ['d'], 7, 8, 4, 0⟩
  have hg : g ∈ graphs := List.mem_of_getElem? (Option.some_get _).symm
  have hl : l.Sound := by
    refine ⟨fiveLines.indexed, sound_graphsAfter fiveLines.indexed (fun g hg => ?_) fiveSteps g hg⟩
    rw [List.mem_singleton.mp hg]
    exact OffsetGraph.sound_empty _
  have hc : l.Owns c := rfl
  have hd : l.Owns d := rfl
  have hcycle : l.resolve [] d = .error (.cycle [3, 4, 3]) := by decide +kernel
  have hops : l.Hops (.resolve c) [1, 1] ⟨1, 0⟩ := by
    have hlines : l.graph.heads.headOf a = .ok a ∧ l.graph.heads.headOf b = .ok b := by
      decide +kernel
    have ha : l.Means (.anchor a) ⟨1, 0⟩ :=
      .unchecked hlines.1 (by decide +kernel) (by decide +kernel)
    have hb : l.Hops (.anchor b) [1] ⟨1, 0⟩ :=
      .line hlines.2 (by decide +kernel)
        (.relative (e := ⟨1, 0, .relative, 1⟩) ⟨by decide +kernel, by decide +kernel,
          by decide, by decide +kernel⟩ rfl (.stop ha))
    exact .relative (e := ⟨2, 1, .relative, 1⟩) ⟨by decide +kernel, by decide +kernel,
      by decide, by decide +kernel⟩ rfl hb
  have hreply : l.reply .fresh (.resolve d) = (.error (.cycle [3, 4, 3]), .fresh) :=
    ((reply_iff_means hl [] (by simp)).2 (.resolve d) hd).2.2.2.trans
      (congrArg (Resolver.whole .fresh) hcycle)
  have hcalls : ∀ call ∈ [ResolverCall.resolve d], l.Owns call.token := by
    intro call hcall
    rw [List.mem_singleton.mp hcall]
    exact hd
  have hsum := ((reply_iff_means hl _ hcalls).2 (.resolve c) hc).2.2.1 [1, 1] ⟨1, 0⟩ hops
  exact ⟨l, c, d, hl, hc, hd, congrArg Prod.fst hreply, congrArg Prod.snd hreply, hops, hsum⟩

end Layout

end MarkupIndent.Margin
