import MarkupIndent.Proofs.GraphOrder

/-!
# Calls on offset graphs

A graph is changed by calls one after the other, with tokens of the document or of any other one,
and it may be copied on the way. Here a call writes into its graph as it goes, so what it has
written would stay if it failed later on. It never does: a declaration checks its rule and its
tokens before it writes, and a range has the same rule and the same base for all its tokens, so it
fails at the first one that it declares or at none.

* `InPlace`: what a call does to the graph that it is made on, also if it fails.
* `GraphCall`, `carryOut`: the ways to change a graph, all or nothing.
* `on_declareEach`: **a range fails before it writes**.
* `on_run`: so a call is carried out as a whole or leaves its graph alone.
* `OffsetGraph.Sound`, `sound_carryOut`: what a graph is like after any calls.
* `graphs_sound`: all graphs that are reached by calls and copies.
-/

namespace MarkupIndent.Margin

open Markup

/-! ## Calls that write as they go -/

/-- A call on a graph: what it writes stays, also if it fails. -/
abbrev InPlace (α : Type) := ExceptT Fault (StateM OffsetGraph) α

namespace InPlace

/-- The result of a call on a graph, and the graph that it leaves. -/
def on {α : Type} (call : InPlace α) (g : OffsetGraph) : Except Fault α × OffsetGraph :=
  call.run.run g

/-- The index of a token of the document. -/
def own (token : TokenRef) : InPlace Nat := do
  let g ← get
  MonadExcept.ofExcept (g.ownIndex token)

/-- Make a token the root, then drop its entry. -/
def setRoot (token : TokenRef) : InPlace Unit := do
  let index ← own token
  modify fun g => { g with root := some index }
  modify fun g => { g with entries := g.entries.setIfInBounds index none }

/-- Hang a token on a base, once all is checked. -/
def declare (target base : TokenRef) (kind : OffsetKind) (weight : Int) : InPlace Unit := do
  MonadExcept.ofExcept (OffsetGraph.checkRule kind weight)
  let t ← own target
  let b ← own base
  let g ← get
  if g.root = some t then return
  let entry : OffsetEntry := ⟨t, b, kind, if kind = .relative then weight else 0⟩
  set { g with entries := g.entries.setIfInBounds t (some entry) }

/-- Hang tokens on a base one by one. -/
def declareEach (targets : List Token) (base : TokenRef) (kind : OffsetKind) (weight : Int) :
    InPlace Unit :=
  targets.forM fun t =>
    if t.index = base.index then return else declare (.own t.index) base kind weight

/-- Hang the significant tokens of a closed range on a base. -/
def declareRange (first last : Int) (base : TokenRef) (kind : OffsetKind) (weight : Int) :
    InPlace Unit := do
  let g ← get
  declareEach (g.heads.between first last) base kind weight

/-- Let the significant tokens of a closed range keep the indentation of their lines. -/
def pin (first last : Int) : InPlace Unit := do
  let g ← get
  (g.heads.between first last).forM fun t => declare (.own t.index) (.own t.index) .pinned 0

section Run

variable {α β : Type}

@[simp] theorem on_pure (a : α) (g : OffsetGraph) : (pure a : InPlace α).on g = (.ok a, g) := rfl

@[simp] theorem on_get (g : OffsetGraph) : (get : InPlace OffsetGraph).on g = (.ok g, g) := rfl

@[simp] theorem on_set (g g' : OffsetGraph) : (set g' : InPlace PUnit).on g = (.ok ⟨⟩, g') := rfl

@[simp] theorem on_modify (f : OffsetGraph → OffsetGraph) (g : OffsetGraph) :
    (modify f : InPlace PUnit).on g = (.ok ⟨⟩, f g) := rfl

@[simp] theorem on_ofExcept (x : Except Fault α) (g : OffsetGraph) :
    (MonadExcept.ofExcept x : InPlace α).on g = (x, g) := by
  cases x <;> rfl

@[simp] theorem on_bind (x : InPlace α) (f : α → InPlace β) (g : OffsetGraph) :
    (x >>= f).on g = match x.on g with
      | (.ok a, g') => (f a).on g'
      | (.error fault, g') => (.error fault, g') := by
  simp only [on, ExceptT.run_bind, StateT.run_bind]
  rcases StateT.run (ExceptT.run x) g with ⟨a | a, g'⟩ <;> rfl

@[simp] theorem on_own (token : TokenRef) (g : OffsetGraph) :
    (own token).on g = (g.ownIndex token, g) := by
  simp [own]

end Run

/-- What a call leaves that is carried out as a whole or not at all. -/
def whole (g : OffsetGraph) : Except Fault OffsetGraph → Except Fault Unit × OffsetGraph
  | .ok g' => (.ok (), g')
  | .error fault => (.error fault, g)

theorem on_setRoot (token : TokenRef) (g : OffsetGraph) :
    (setRoot token).on g = whole g (g.setRoot token) := by
  simp only [setRoot, on_bind, on_own, OffsetGraph.setRoot]
  cases g.ownIndex token <;> simp [whole, bind, Except.bind]

/-- A declaration checks all before it writes. -/
theorem on_declare (target base : TokenRef) (kind : OffsetKind) (weight : Int) (g : OffsetGraph) :
    (declare target base kind weight).on g = whole g (g.declare target base kind weight) := by
  simp only [declare, OffsetGraph.declare, on_bind, on_ofExcept, on_own, on_get]
  rcases OffsetGraph.checkRule kind weight with fault | u
  · rfl
  rcases htarget : g.ownIndex target with fault | t
  · simp [htarget, whole, bind, Except.bind]
  rcases hbase : g.ownIndex base with fault | b
  · simp [htarget, hbase, whole, bind, Except.bind]
  by_cases hroot : g.root = some t <;> simp [htarget, hbase, hroot, whole, bind, Except.bind]

/-- Whether a declaration fails is a matter of its rule and its base, if its target is a token of
the document; and after one that does not fail it is as it was. -/
theorem declare_ok {g g' : OffsetGraph} {t u : Nat} {base : TokenRef} {kind : OffsetKind}
    {weight : Int} (h : g.declare (.own t) base kind weight = .ok g') (hu : u < g.heads.size) :
    g'.heads = g.heads ∧ ∃ g'', g'.declare (.own u) base kind weight = .ok g'' := by
  unfold OffsetGraph.declare at h
  obtain ⟨_, hrule, h⟩ := bind_eq_ok.mp h
  obtain ⟨t', -, h⟩ := bind_eq_ok.mp h
  obtain ⟨b, hbase, h⟩ := bind_eq_ok.mp h
  have hheads : g'.heads = g.heads := by
    split at h <;> cases h <;> rfl
  refine ⟨hheads, ?_⟩
  have hown : g'.ownIndex (.own u) = .ok u := by
    rw [← hheads] at hu
    simp only [OffsetGraph.ownIndex, if_pos hu]
  have hbase' : g'.ownIndex base = .ok b := by
    cases base <;> simpa only [OffsetGraph.ownIndex, hheads] using hbase
  simp only [OffsetGraph.declare, hrule, hown, hbase', bind, Except.bind]
  split <;> exact ⟨_, rfl⟩

/-- Once a token of a range is declared, so are all that follow. -/
theorem declareEach_ok {targets : List Token} {g g' : OffsetGraph} {t : Nat} {base : TokenRef}
    {kind : OffsetKind} {weight : Int} (h : g.declare (.own t) base kind weight = .ok g')
    (htargets : ∀ u ∈ targets, u.index < g.heads.size) :
    ∃ g'', g'.declareEach targets base kind weight = .ok g'' := by
  induction targets generalizing g g' t with
  | nil => exact ⟨g', rfl⟩
  | cons u rest ih =>
    obtain ⟨hu, hrest⟩ := List.forall_mem_cons.mp htargets
    obtain ⟨hheads, g1, h1⟩ := declare_ok h hu
    unfold OffsetGraph.declareEach
    rw [List.foldlM_cons]
    by_cases hbase : u.index = base.index
    · rw [if_pos hbase]
      exact ih h hrest
    · rw [if_neg hbase, h1]
      exact ih h1 (hheads ▸ hrest)

/-- **A range fails before it writes**: at the first token that it declares, or not at all. -/
theorem on_declareEach {targets : List Token} {g : OffsetGraph} (base : TokenRef)
    (kind : OffsetKind) (weight : Int) (htargets : ∀ u ∈ targets, u.index < g.heads.size) :
    (declareEach targets base kind weight).on g =
      whole g (g.declareEach targets base kind weight) := by
  induction targets generalizing g with
  | nil => rfl
  | cons u rest ih =>
    obtain ⟨hu, hrest⟩ := List.forall_mem_cons.mp htargets
    have hcons : declareEach (u :: rest) base kind weight =
        ((if u.index = base.index then pure () else declare (.own u.index) base kind weight) >>=
          fun _ => declareEach rest base kind weight) := rfl
    have hcons' : g.declareEach (u :: rest) base kind weight =
        ((if u.index = base.index then .ok g else g.declare (.own u.index) base kind weight) >>=
          fun g => g.declareEach rest base kind weight) := List.foldlM_cons
    rw [hcons, hcons', on_bind]
    by_cases hbase : u.index = base.index
    · rw [if_pos hbase, if_pos hbase]
      exact ih hrest
    rw [if_neg hbase, if_neg hbase, on_declare]
    rcases hg : g.declare (.own u.index) base kind weight with fault | g1
    · rfl
    · obtain ⟨g2, h2⟩ := declareEach_ok hg hrest
      have hrest' := ih ((declare_ok hg hu).1 ▸ hrest)
      simp only [whole, h2, bind, Except.bind] at hrest' ⊢
      exact hrest'

/-- Pinning tokens of the document never fails. -/
theorem on_pinEach {targets : List Token} {g : OffsetGraph}
    (htargets : ∀ u ∈ targets, u.index < g.heads.size) :
    ∃ g', targets.foldlM (fun g t => g.declare (.own t.index) (.own t.index) .pinned 0) g = .ok g' ∧
      on (targets.forM fun t => declare (.own t.index) (.own t.index) .pinned 0) g =
        (.ok (), g') := by
  induction targets generalizing g with
  | nil => exact ⟨g, rfl, rfl⟩
  | cons u rest ih =>
    obtain ⟨hu, hrest⟩ := List.forall_mem_cons.mp htargets
    obtain ⟨g1, h1⟩ : ∃ g1, g.declare (.own u.index) (.own u.index) .pinned 0 = .ok g1 := by
      have hown : g.ownIndex (.own u.index) = .ok u.index := if_pos hu
      have hrule : OffsetGraph.checkRule .pinned 0 = .ok () := rfl
      simp only [OffsetGraph.declare, hrule, hown, bind, Except.bind]
      split <;> exact ⟨_, rfl⟩
    obtain ⟨g2, h2, h3⟩ := ih ((declare_ok h1 hu).1 ▸ hrest)
    refine ⟨g2, ?_, ?_⟩
    · rw [List.foldlM_cons, h1]
      exact h2
    · have hcons : (u :: rest).forM (fun t => declare (.own t.index) (.own t.index) .pinned 0) =
          (declare (.own u.index) (.own u.index) .pinned 0 >>= fun _ =>
            rest.forM fun t => declare (.own t.index) (.own t.index) .pinned 0) := rfl
      rw [hcons, on_bind, on_declare, h1]
      exact h3

end InPlace

/-! ## All or nothing -/

/-- The ways to change a graph, with tokens of any document. -/
inductive GraphCall where
  | setRoot (token : TokenRef)
  | declare (target base : TokenRef) (kind : OffsetKind) (weight : Int)
  | range (first last : Int) (base : TokenRef) (kind : OffsetKind) (weight : Int)
  | pin (first last : Int)

namespace GraphCall

/-- A call as it writes into its graph. -/
def run : GraphCall → InPlace Unit
  | .setRoot token => InPlace.setRoot token
  | .declare target base kind weight => InPlace.declare target base kind weight
  | .range first last base kind weight => InPlace.declareRange first last base kind weight
  | .pin first last => InPlace.pin first last

/-- What a call makes of a graph, if it does not fail. -/
def carryOut (g : OffsetGraph) : GraphCall → Except Fault OffsetGraph
  | .setRoot token => g.setRoot token
  | .declare target base kind weight => g.declare target base kind weight
  | .range first last base kind weight => g.declareRange first last base kind weight
  | .pin first last => g.pin first last

end GraphCall

theorem index_lt_of_between {tokens : Array Token} (hx : Indexed tokens) {first last : Int}
    {t : Token} (ht : t ∈ (Heads.ofTokens tokens).between first last) : t.index < tokens.size := by
  obtain ⟨i, -, -, hi, -⟩ := mem_between.mp ht
  rw [hx i t hi]
  exact (Array.getElem?_eq_some_iff.mp hi).1

/-- **A call is carried out as a whole, or it leaves its graph alone.** -/
theorem on_run {tokens : Array Token} (hx : Indexed tokens) {g : OffsetGraph}
    (hg : g.heads = .ofTokens tokens) (call : GraphCall) :
    call.run.on g = InPlace.whole g (call.carryOut g) := by
  have htargets : ∀ first last, ∀ u ∈ g.heads.between first last, u.index < g.heads.size := by
    intro first last u hu
    rw [hg] at hu ⊢
    exact index_lt_of_between hx hu
  cases call with
  | setRoot token => exact InPlace.on_setRoot token g
  | declare target base kind weight => exact InPlace.on_declare target base kind weight g
  | range first last base kind weight =>
    rw [GraphCall.run, InPlace.declareRange, InPlace.on_bind]
    exact InPlace.on_declareEach base kind weight (htargets first last)
  | pin first last =>
    obtain ⟨g', h1, h2⟩ := InPlace.on_pinEach (htargets first last)
    rw [GraphCall.run, InPlace.pin, InPlace.on_bind, GraphCall.carryOut, OffsetGraph.pin, h1]
    exact h2

/-! ## What a graph is like -/

/-- The kinds of offsets that there are. -/
def OffsetKind.all : List OffsetKind :=
  [.relative, .same, .align, .pinned]

/-- The entries of a graph of the tokens are those of their tokens, each with a base among the
tokens, a kind that there is and a number of levels that fits it, and its root has none. -/
structure OffsetGraph.Sound (tokens : Array Token) (g : OffsetGraph) : Prop where
  heads : g.heads = .ofTokens tokens
  size : g.entries.size = tokens.size
  target : ∀ (i : Nat) (e : OffsetEntry), g.entries[i]? = some (some e) → e.target = i
  base : ∀ (i : Nat) (e : OffsetEntry), g.entries[i]? = some (some e) → e.base < tokens.size
  kind : ∀ (i : Nat) (e : OffsetEntry), g.entries[i]? = some (some e) → e.kind ∈ OffsetKind.all
  weight : ∀ (i : Nat) (e : OffsetEntry), g.entries[i]? = some (some e) →
    0 ≤ e.weight ∧ (e.kind ≠ .relative → e.weight = 0)
  root : ∀ r, g.root = some r → g.entries[r]? = some none

namespace OffsetGraph

variable {tokens : Array Token} {g g' : OffsetGraph}

theorem sound_empty (tokens : Array Token) : (empty (.ofTokens tokens)).Sound tokens := by
  have hnone : ∀ (i : Nat) (e : OffsetEntry),
      (empty (.ofTokens tokens)).entries[i]? ≠ some (some e) := by
    intro i e h
    simp [empty, Array.getElem?_replicate] at h
  exact ⟨rfl, by simp [empty, Heads.size, Heads.ofTokens], fun i e h => absurd h (hnone i e),
    fun i e h => absurd h (hnone i e), fun i e h => absurd h (hnone i e),
    fun i e h => absurd h (hnone i e), by simp [empty]⟩

theorem Sound.lt_of_ownIndex (h : g.Sound tokens) {token : TokenRef} {i : Nat}
    (hi : g.ownIndex token = .ok i) : i < tokens.size := by
  unfold ownIndex at hi
  split at hi
  · split at hi
    · next hlt =>
      cases hi
      rwa [h.heads] at hlt
    · cases hi
  · cases hi

/-- The rule of a declaration that is not refused. -/
theorem of_checkRule {kind : OffsetKind} {weight : Int} (h : checkRule kind weight = .ok ()) :
    kind ∈ OffsetKind.all ∧ 0 ≤ weight := by
  unfold checkRule at h
  split at h
  · cases h
  · next hknown =>
    split at h
    · cases h
    · next hneg =>
      refine ⟨?_, by omega⟩
      cases kind with
      | unknown label => exact absurd rfl (hknown label)
      | relative | same | align | pinned => decide

/-- An entry after a write was there before, or is what was written. -/
theorem entry_of_set {entries : Array (Option OffsetEntry)} {t i : Nat}
    {written : Option OffsetEntry} {e : OffsetEntry}
    (h : (entries.setIfInBounds t written)[i]? = some (some e)) :
    entries[i]? = some (some e) ∨ i = t ∧ written = some e := by
  by_cases hi : t = i
  · subst hi
    rw [Array.getElem?_setIfInBounds_self] at h
    split at h
    · exact .inr ⟨rfl, Option.some.inj h⟩
    · cases h
  · rw [Array.getElem?_setIfInBounds_ne hi] at h
    exact .inl h

theorem sound_setRoot (h : g.Sound tokens) {token : TokenRef} (hg : g.setRoot token = .ok g') :
    g'.Sound tokens := by
  obtain ⟨index, hindex, hg⟩ := bind_eq_ok.mp hg
  cases hg
  have hlt : index < g.entries.size := by
    rw [h.size]
    exact h.lt_of_ownIndex hindex
  have hkept : ∀ (i : Nat) (e : OffsetEntry),
      (g.entries.setIfInBounds index none)[i]? = some (some e) → g.entries[i]? = some (some e) :=
    fun i e he => (entry_of_set he).resolve_right fun hset => by cases hset.2
  refine ⟨h.heads, by simp [h.size], fun i e he => h.target i e (hkept i e he),
    fun i e he => h.base i e (hkept i e he), fun i e he => h.kind i e (hkept i e he),
    fun i e he => h.weight i e (hkept i e he), ?_⟩
  rintro r ⟨⟩
  exact Array.getElem?_setIfInBounds_self_of_lt hlt

theorem sound_declare (h : g.Sound tokens) {target base : TokenRef} {kind : OffsetKind}
    {weight : Int} (hg : g.declare target base kind weight = .ok g') : g'.Sound tokens := by
  obtain ⟨⟨⟩, hrule, hg⟩ := bind_eq_ok.mp hg
  obtain ⟨t, ht, hg⟩ := bind_eq_ok.mp hg
  obtain ⟨b, hb, hg⟩ := bind_eq_ok.mp hg
  obtain ⟨hkind, hweight⟩ := of_checkRule hrule
  split at hg
  · cases hg
    exact h
  next hroot =>
  cases hg
  refine ⟨h.heads, by simp [h.size], fun i e he => ?_, fun i e he => ?_, fun i e he => ?_,
    fun i e he => ?_, fun r hr => ?_⟩
  · rcases entry_of_set he with he | ⟨rfl, ⟨⟩⟩
    · exact h.target i e he
    · rfl
  · rcases entry_of_set he with he | ⟨rfl, ⟨⟩⟩
    · exact h.base i e he
    · exact h.lt_of_ownIndex hb
  · rcases entry_of_set he with he | ⟨rfl, ⟨⟩⟩
    · exact h.kind i e he
    · exact hkind
  · rcases entry_of_set he with he | ⟨rfl, ⟨⟩⟩
    · exact h.weight i e he
    · refine ⟨?_, fun hne => if_neg hne⟩
      simp only
      split <;> omega
  · have hne : t ≠ r := by
      rintro rfl
      exact hroot hr
    rw [Array.getElem?_setIfInBounds_ne hne]
    exact h.root r hr

/-- What each step of a fold keeps, the fold keeps. -/
theorem fold_keeps {P : OffsetGraph → Prop} {α : Type}
    {f : OffsetGraph → α → Except Fault OffsetGraph} {xs : List α}
    (hf : ∀ x ∈ xs, ∀ g g' : OffsetGraph, P g → f g x = .ok g' → P g')
    (h : P g) (hg : xs.foldlM f g = .ok g') : P g' := by
  induction xs generalizing g with
  | nil =>
    cases hg
    exact h
  | cons x rest ih =>
    rw [List.foldlM_cons] at hg
    obtain ⟨g1, h1, hg⟩ := bind_eq_ok.mp hg
    exact ih (fun y hy => hf y (List.mem_cons_of_mem x hy)) (hf x List.mem_cons_self g g1 h h1) hg

/-- **A call that is carried out keeps a graph sound.** -/
theorem sound_carryOut (h : g.Sound tokens) {call : GraphCall} (hg : call.carryOut g = .ok g') :
    g'.Sound tokens := by
  cases call with
  | setRoot token => exact sound_setRoot h hg
  | declare target base kind weight => exact sound_declare h hg
  | range first last base kind weight =>
    refine fold_keeps (fun t _ g g' h hg => ?_) h hg
    split at hg
    · cases hg
      exact h
    · exact sound_declare h hg
  | pin first last => exact fold_keeps (fun t _ g g' h hg => sound_declare h hg) h hg

end OffsetGraph

/-! ## Graphs that are reached -/

/-- A step with some graphs at hand: a call on one of them, or a copy of one. -/
inductive GraphStep where
  | on (n : Nat) (call : GraphCall)
  | copy (n : Nat)

/-- The graphs after a step, and what went wrong. A copy comes after all others; a step with a graph
that is not there does nothing. -/
def GraphStep.run (graphs : List OffsetGraph) : GraphStep → List OffsetGraph × Option Fault
  | .on n call =>
    match graphs[n]? with
    | none => (graphs, none)
    | some g =>
      match call.run.on g with
      | (.ok _, g') => (graphs.set n g', none)
      | (.error fault, g') => (graphs.set n g', some fault)
  | .copy n =>
    match graphs[n]? with
    | none => (graphs, none)
    | some g => (graphs ++ [g], none)

/-- The graphs after steps in turn. -/
def graphsAfter (graphs : List OffsetGraph) (steps : List GraphStep) : List OffsetGraph :=
  steps.foldl (fun graphs step => (step.run graphs).1) graphs

/-- The tokens of a document in their order: each knows its place. -/
structure TokenStream where
  tokens : Array Token
  indexed : Indexed tokens

section Reached

variable {tokens : Array Token} (hx : Indexed tokens) {graphs : List OffsetGraph}
  (h : ∀ g ∈ graphs, g.Sound tokens)
include hx h

/-- A call on a graph is carried out, or it fails and changes nothing. -/
theorem run_call {n : Nat} {g : OffsetGraph} (hn : graphs[n]? = some g) (call : GraphCall) :
    (∃ g', call.carryOut g = .ok g' ∧ (GraphStep.on n call).run graphs = (graphs.set n g', none)) ∨
      ∃ fault, call.carryOut g = .error fault ∧
        (GraphStep.on n call).run graphs = (graphs, some fault) := by
  have hrun := on_run hx (h g (List.mem_of_getElem? hn)).heads call
  simp only [GraphStep.run, hn, hrun]
  rcases call.carryOut g with fault | g'
  · refine .inr ⟨fault, rfl, ?_⟩
    obtain ⟨hlt, rfl⟩ := List.getElem?_eq_some_iff.mp hn
    simp only [InPlace.whole, List.set_getElem_self hlt]
  · exact .inl ⟨g', rfl, rfl⟩

omit h in
/-- What the call of a step keeps, the step keeps for all graphs. -/
theorem step_keeps {P : OffsetGraph → Prop} (hP : ∀ g, P g → g.Sound tokens)
    (h : ∀ g ∈ graphs, P g) {step : GraphStep}
    (hcall : ∀ n call, step = .on n call → ∀ g g', P g → call.carryOut g = .ok g' → P g') :
    ∀ g ∈ (step.run graphs).1, P g := by
  cases step with
  | on n call =>
    cases hn : graphs[n]? with
    | none => simpa only [GraphStep.run, hn] using h
    | some g =>
      rcases run_call hx (fun g hg => hP g (h g hg)) hn call with ⟨g', hg, hrun⟩ | ⟨fault, -, hrun⟩
      · rw [hrun]
        intro k hk
        rcases List.mem_or_eq_of_mem_set hk with hk | rfl
        · exact h k hk
        · exact hcall n call rfl g k (h g (List.mem_of_getElem? hn)) hg
      · rw [hrun]
        exact h
  | copy n =>
    cases hn : graphs[n]? with
    | none => simpa only [GraphStep.run, hn] using h
    | some g =>
      simp only [GraphStep.run, hn, List.mem_append, List.mem_singleton]
      rintro k (hk | rfl)
      · exact h k hk
      · exact h k (List.mem_of_getElem? hn)

omit h in
theorem graphsAfter_keeps {P : OffsetGraph → Prop} (hP : ∀ g, P g → g.Sound tokens)
    (h : ∀ g ∈ graphs, P g) {steps : List GraphStep}
    (hcall : ∀ n call, .on n call ∈ steps → ∀ g g', P g → call.carryOut g = .ok g' → P g') :
    ∀ g ∈ graphsAfter graphs steps, P g := by
  induction steps generalizing graphs with
  | nil => exact h
  | cons step rest ih =>
    refine ih (step_keeps hx hP h fun n call heq => hcall n call ?_)
      fun n call hmem => hcall n call (List.mem_cons_of_mem step hmem)
    rw [heq]
    exact List.mem_cons_self

/-- **Steps keep all graphs sound.** -/
theorem sound_graphsAfter (steps : List GraphStep) :
    ∀ g ∈ graphsAfter graphs steps, g.Sound tokens :=
  graphsAfter_keeps hx (fun _ hg => hg) h fun _ _ _ _ _ hg => OffsetGraph.sound_carryOut hg

end Reached

/-- **Offset graphs are sound and their calls are all or nothing.** Take any calls, with tokens of
the document or of another one, on a graph of the tokens and on copies of those that are reached. In
every graph that is reached, the entry of a token is its own, hangs on a token of the document by a
kind that there is, and has a number of levels that is not negative, and zero unless the kind counts
levels; and the root has none. A call that fails leaves all graphs as they were, and one that does
not is carried out as a whole. -/
theorem graphs_sound (s : TokenStream) (steps : List GraphStep) :
    let graphs := graphsAfter [.empty (.ofTokens s.tokens)] steps
    (∀ g ∈ graphs, g.Sound s.tokens) ∧
      (∀ (step : GraphStep) (fault : Fault),
        (step.run graphs).2 = some fault → (step.run graphs).1 = graphs) ∧
      ∀ (n : Nat) (g : OffsetGraph) (call : GraphCall) (g' : OffsetGraph),
        graphs[n]? = some g → call.carryOut g = .ok g' →
          (GraphStep.on n call).run graphs = (graphs.set n g', none) := by
  intro graphs
  have hsound : ∀ g ∈ graphs, g.Sound s.tokens := by
    refine sound_graphsAfter s.indexed (fun g hg => ?_) steps
    rw [List.mem_singleton.mp hg]
    exact OffsetGraph.sound_empty s.tokens
  refine ⟨hsound, fun step fault hfault => ?_, fun n g call g' hn hg => ?_⟩
  · cases step with
    | on n call =>
      cases hn : graphs[n]? with
      | none => simp only [GraphStep.run, hn]
      | some g =>
        rcases run_call s.indexed hsound hn call with ⟨g', -, hrun⟩ | ⟨fault', -, hrun⟩
        · rw [hrun] at hfault
          cases hfault
        · rw [hrun]
    | copy n =>
      unfold GraphStep.run at hfault
      simp only at hfault
      split at hfault <;> cases hfault
  · rcases run_call s.indexed hsound hn call with ⟨k, hk, hrun⟩ | ⟨fault, hfault, -⟩
    · rw [hrun, Except.ok.inj (hg.symm.trans hk)]
    · rw [hg] at hfault
      cases hfault

/-- Two names. -/
def twoNames : TokenStream where
  tokens := #[⟨0, .name, ['a'], 0, 1, 1, 0⟩, ⟨1, .name, ['b'], 2, 3, 1, 2⟩]
  indexed := by
    rintro (_ | _ | i) t ht
    · cases ht
      rfl
    · cases ht
      rfl
    · simp at ht

/-- A range on a token of another document, whose index is that of the second token: that one is
passed over as if it were the base, and the call fails at the first one. -/
theorem graphs_sound_foreign :
    let graphs := graphsAfter [.empty (.ofTokens twoNames.tokens)]
      [.copy 0, .on 1 (.setRoot (.own 1)), .on 1 (.declare (.own 0) (.own 1) .relative 2)]
    let range := GraphStep.on 1 (.range 0 1 (.foreign ⟨1, .name, ['c'], 2, 3, 1, 2⟩) .same 0)
    (range.run graphs).2 = some (.foreignToken 1 ['c']) ∧ (range.run graphs).1 = graphs := by
  intro graphs range
  have hfault : (range.run graphs).2 = some (.foreignToken 1 ['c']) := by decide +kernel
  exact ⟨hfault, (graphs_sound twoNames _).2.1 range _ hfault⟩

end MarkupIndent.Margin
