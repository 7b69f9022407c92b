import Mathlib.Data.List.Induction
import MarkupIndent.Files.Store

/-!
# Stores after files were written

Writing gives a file other bytes or makes a new one, and never touches a directory or a permission.
So a path leads where it led before: a step needs a directory, and all of them are still there. Only
what stops a path may get another name, where a new file stands in its way.

* `Through`: the places at which the steps of a path begin.
* `Grown`: a store after files were written.
* `resolve_grown`: **paths lead where they led**, unless they go through a new file.
* `changeFile_ok`, `grown_put`: writing a file.
* `changeFile_denied`: a place that is closed to writing.
-/

namespace MarkupIndent.Files.Store

open Text

/-- The bytes of the file at a place, none if there is no file. -/
def bytesAt (s : Store) (place : Place) : ByteArray :=
  match s.get? place with
  | some (.file bytes) => bytes
  | _ => ByteArray.empty

/-- The root is a directory, so a place where none stands has a name. -/
theorem ne_nil_of_get? {s : Store} {place : Place} (h : s.get? place ≠ some .directory) :
    place ≠ [] := by
  rintro rfl
  exact h rfl

theorem not_directory {s : Store} {place : Place} {bytes : ByteArray}
    (h : s.get? place = some (.file bytes)) : s.get? place ≠ some .directory := by
  intro hdir
  rw [h] at hdir
  cases hdir

/-! ## The way of a path -/

/-- The place of a path is where its steps lead, if it can name a file. -/
theorem resolve_eq_ok {s : Store} {p : Path} {place : Place} :
    s.resolve p = .ok place ↔ p.hasNull = false ∧ s.walk p = .ok place := by
  unfold resolve
  cases p.hasNull <;> simp

/-- A path goes through a place: one of its steps begins there. -/
def Through (s : Store) (p : Path) (place : Place) : Prop :=
  ∃ parts part rest, p.parts = parts ++ part :: rest ∧ s.walk ⟨p.root, parts⟩ = .ok place

/-- A step begins at a directory. -/
theorem directory_of_step {s : Store} {place next : Place} {part : String}
    (h : s.step place part = .ok next) : s.get? place = some .directory := by
  unfold step at h
  split at h
  · assumption
  · cases h
  · cases h

/-- A path that leads to a place goes through directories only. -/
theorem directory_of_through {s : Store} {p : Path} {place way : Place}
    (h : s.resolve p = .ok place) (hway : s.Through p way) : s.get? way = some .directory := by
  obtain ⟨parts, part, rest, hparts, hway⟩ := hway
  have hsplit : s.walk p =
      s.walk ⟨p.root, parts⟩ >>= fun way => s.step way part >>= (rest.foldlM s.step ·) := by
    rw [walk, hparts, List.foldlM_append]
    rfl
  have h := (resolve_eq_ok.mp h).2
  rw [hsplit, hway] at h
  cases hstep : s.step way part with
  | error obstacle =>
    simp only [bind, Except.bind, hstep] at h
    cases h
  | ok next => exact directory_of_step hstep

/-! ## What writing leaves -/

/-- The store `t` is `s` after files were written: the directories are the same, what was a file is
one, and new files are at some places only. -/
structure Grown (fresh : Place → Prop) (s t : Store) : Prop where
  here : t.here = s.here
  unreadable : t.unreadable = s.unreadable
  unwritable : t.unwritable = s.unwritable
  directory : ∀ place, t.get? place = some .directory ↔ s.get? place = some .directory
  kept : ∀ place, t.get? place = none → s.get? place = none
  fresh : ∀ place, s.get? place = none → ¬ fresh place → t.get? place = none

section Grown

variable {fresh : Place → Prop} {s t : Store} (h : Grown fresh s t)
include h

/-- A step leads where it led, unless it begins at a new file. -/
theorem step_grown {place : Place} (hplace : s.get? place = none → ¬ fresh place) (part : String) :
    t.step place part = s.step place part := by
  cases hs : s.get? place with
  | none =>
    have ht := h.fresh place hs (hplace hs)
    simp only [step, hs, ht]
  | some entry =>
    cases entry with
    | directory => simp only [step, hs, (h.directory place).mpr hs]
    | file bytes =>
      cases ht : t.get? place with
      | none => rw [h.kept place ht] at hs; cases hs
      | some entry =>
        cases entry with
        | directory => rw [(h.directory place).mp ht] at hs; cases hs
        | file bytes' => simp only [step, hs, ht]

/-- **Paths lead where they led**, unless they go through a new file. -/
theorem resolve_grown {p : Path}
    (hp : ∀ place, s.Through p place → s.get? place = none → ¬ fresh place) :
    t.resolve p = s.resolve p := by
  suffices hparts : ∀ parts rest, p.parts = parts ++ rest →
      t.walk ⟨p.root, parts⟩ = s.walk ⟨p.root, parts⟩ by
    rw [resolve, resolve, hparts p.parts [] (List.append_nil _).symm]
  intro parts
  induction parts using List.reverseRecOn with
  | nil =>
    intro _ _
    simp only [walk, origin, h.here, List.foldlM_nil]
  | append_singleton parts part ih =>
    intro rest hrest
    rw [List.append_assoc] at hrest
    have hsplit : ∀ u : Store, u.walk ⟨p.root, parts ++ [part]⟩ =
        u.walk ⟨p.root, parts⟩ >>= fun place => u.step place part := by
      intro u
      simp only [walk, List.foldlM_append, List.foldlM_cons, List.foldlM_nil, origin, bind_pure]
    rw [hsplit t, hsplit s, ih _ hrest]
    cases hplace : s.walk ⟨p.root, parts⟩ with
    | error obstacle => rfl
    | ok place => exact step_grown h (hp place ⟨parts, part, rest, hrest, hplace⟩) part

/-- A store has grown after a file was written whose place may be new. -/
theorem grown_put {place : Place} (hplace : t.get? place ≠ some .directory)
    (hfresh : s.get? place = none → fresh place) (bytes : ByteArray) :
    Grown fresh s (t.put place (.file bytes)) := by
  have hne := ne_nil_of_get? hplace
  refine ⟨h.here, h.unreadable, h.unwritable, fun other => ?_, fun other hother => ?_,
    fun other hother hnot => ?_⟩
  · rw [get?_put t other _ hne]
    split
    · next heq =>
      subst heq
      refine ⟨fun hfile => ?_, fun hdir => absurd ((h.directory _).mpr hdir) hplace⟩
      cases hfile
    · exact h.directory other
  · rw [get?_put t other _ hne] at hother
    split at hother
    · cases hother
    · exact h.kept other hother
  · rw [get?_put t other _ hne, if_neg]
    · exact h.fresh other hother hnot
    · rintro rfl
      exact hnot (hfresh hother)

end Grown

/-- The text of a path is a matter of its place and what stands there. -/
theorem readText_of_resolve {s t : Store} {p : Path} (hp : t.resolve p = s.resolve p)
    (hrights : t.unreadable = s.unreadable)
    (hkept : ∀ place, s.resolve p = .ok place → t.get? place = s.get? place) :
    t.readText p = s.readText p := by
  unfold readText readBytes
  rw [hp]
  cases hplace : s.resolve p with
  | error obstacle => rfl
  | ok place => simp only [bind, Except.bind, bytesIn, hkept place hplace, hrights]

theorem grown_refl (fresh : Place → Prop) (s : Store) : Grown fresh s s :=
  ⟨rfl, rfl, rfl, fun _ => Iff.rfl, fun _ => id, fun _ h _ => h⟩

/-- A path whose text was read is that of a file. -/
theorem file_of_readText {s : Store} {p : Path} {text : List Char} (h : s.readText p = .ok text) :
    ∃ place bytes, s.resolve p = .ok place ∧ s.get? place = some (.file bytes) := by
  unfold readText readBytes at h
  cases hplace : s.resolve p with
  | error obstacle =>
    rw [hplace] at h
    cases h
  | ok place =>
    cases hget : s.get? place with
    | none =>
      simp only [hplace, bytesIn, hget, bind, Except.bind] at h
      cases h
    | some entry =>
      cases entry with
      | directory =>
        simp only [hplace, bytesIn, hget, bind, Except.bind] at h
        cases h
      | file bytes => exact ⟨place, bytes, rfl, hget⟩

/-- A file that a path leads to, or that can be made there, is changed if its place is open to
writing. -/
theorem changeFile_eq {s : Store} {p : Path} {place : Place} (hp : s.resolve p = .ok place)
    (hplace : s.get? place ≠ some .directory) (change : ByteArray → ByteArray) :
    s.changeFile p change =
      (s.tryPut place (.file (change (s.bytesAt place)))).mapError (FileFault.mk p) := by
  cases hget : s.get? place with
  | none => simp only [changeFile, bytesAt, hp, hget, bind, Except.bind]
  | some entry =>
    cases entry with
    | directory => exact absurd hget hplace
    | file bytes => simp only [changeFile, bytesAt, hp, hget, bind, Except.bind]

/-- **Changing a file** that a path leads to, or that can be made there. -/
theorem changeFile_ok {s : Store} {p : Path} {place : Place} (hp : s.resolve p = .ok place)
    (hplace : s.get? place ≠ some .directory) (hopen : place ∉ s.unwritable)
    (change : ByteArray → ByteArray) :
    s.changeFile p change = .ok (s.put place (.file (change (s.bytesAt place)))) := by
  rw [changeFile_eq hp hplace, tryPut, if_neg hopen]
  rfl

/-- A place that is closed to writing holds what it held. -/
theorem changeFile_denied {s : Store} {p : Path} {place : Place} (hp : s.resolve p = .ok place)
    (hplace : s.get? place ≠ some .directory) (hclosed : place ∈ s.unwritable)
    (change : ByteArray → ByteArray) : s.changeFile p change = .error ⟨p, .denied⟩ := by
  rw [changeFile_eq hp hplace, tryPut, if_pos hclosed]
  rfl

end MarkupIndent.Files.Store
