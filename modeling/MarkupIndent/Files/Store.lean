import MarkupIndent.Files.Path
import MarkupIndent.Text.LineEnd
import MarkupIndent.Text.Quoted
import MarkupIndent.Text.Utf8

/-!
# A store of files

The files and directories that a run can see, by their places: the names on the way from the root.
Paths are resolved step by step, so a step to the parent directory needs the directory that it
leaves. Some places may be closed to reading or to writing.

* `Store.get?`: what stands at a place.
* `Store.resolve`: the place of a path.
* `Store.readText`, `Store.writeText`, `Store.appendText`: the text of a file.
* `Store.makeDirectory`: a directory with all directories above it.
* `Store.filesBelow`: all files in a directory and those below it.
* `get?_put`: what stands at each place after one entry was put.
-/

namespace MarkupIndent.Files

open Text

/-- A place: the names of the directories from the root on, and the name there. -/
abbrev Place := List String

/-- What can stand at a place. -/
inductive Entry where
  | directory
  | file (bytes : ByteArray)
  deriving Inhabited

/-- Two entries are the same. -/
def Entry.same : Entry → Entry → Bool
  | .directory, .directory => true
  | .file a, .file b => a.data.toList == b.data.toList
  | _, _ => false

/-- Why a file cannot be used. -/
inductive Obstacle where
  | missing
  | exists
  | notDirectory
  | isDirectory
  /-- The place is closed to what was asked for. -/
  | denied
  | notText (fault : Utf8.DecodeFault)
  /-- The path names nothing that could be a file. -/
  | nullCharacter
  deriving DecidableEq, Repr

/-- A file that cannot be used, by the path that was given for it. -/
structure FileFault where
  path : Path
  obstacle : Obstacle
  deriving DecidableEq, Repr

/-- The wording of an obstacle, with its number if the operating system reports it. -/
def Obstacle.report : Obstacle → String
  | .missing => "[Errno 2] No such file or directory"
  | .exists => "[Errno 17] File exists"
  | .notDirectory => "[Errno 20] Not a directory"
  | .isDirectory => "[Errno 21] Is a directory"
  | .denied => "[Errno 13] Permission denied"
  | .notText fault => fault.message
  | .nullCharacter => "embedded null byte"

/-- The wording of a fault. -/
def FileFault.message (f : FileFault) : String :=
  match f.obstacle with
  | .notText fault => fault.message
  | .nullCharacter => Obstacle.nullCharacter.report
  | obstacle => obstacle.report ++ ": " ++ quotedString f.path.toString

/-- The files and directories, and the place of the working directory. The root is always a
directory. -/
structure Store where
  here : Place
  entries : List (Place × Entry)
  /-- The places of files that are closed to reading. -/
  unreadable : List Place := []
  /-- The places that are closed to writing: what is there stays, and nothing new is made. -/
  unwritable : List Place := []

namespace Store

/-- What stands at a place. -/
def get? (s : Store) (place : Place) : Option Entry :=
  if place = [] then some .directory
  else (s.entries.find? fun e => e.1 == place).map Prod.snd

/-- Entries with one for a place, instead of the one that stood there or at the end. -/
def setEntry (place : Place) (entry : Entry) : List (Place × Entry) → List (Place × Entry)
  | [] => [(place, entry)]
  | e :: rest => if e.1 == place then (place, entry) :: rest else e :: setEntry place entry rest

/-- Put an entry at a place. -/
def put (s : Store) (place : Place) (entry : Entry) : Store :=
  { s with entries := setEntry place entry s.entries }

theorem find?_setEntry (place other : Place) (entry : Entry) (entries : List (Place × Entry)) :
    ((setEntry place entry entries).find? fun e => e.1 == other).map Prod.snd =
      if other = place then some entry
      else (entries.find? fun e => e.1 == other).map Prod.snd := by
  induction entries with
  | nil =>
    by_cases h : other = place
    · subst h
      simp [setEntry]
    · have h' : ¬ place = other := fun e => h e.symm
      simp [setEntry, h, h']
  | cons e rest ih =>
    by_cases he : e.1 = place
    · subst he
      by_cases h : other = e.1
      · subst h
        simp [setEntry]
      · have h' : ¬ e.1 = other := fun e => h e.symm
        simp [setEntry, h, h']
    · by_cases h : e.1 = other
      · subst h
        simp [setEntry, he]
      · simp [setEntry, he, h, ih]

/-- What stands at each place after one entry was put. -/
theorem get?_put (s : Store) {place : Place} (other : Place) (entry : Entry)
    (h : place ≠ []) :
    (s.put place entry).get? other = if other = place then some entry else s.get? other := by
  unfold get? put
  by_cases ho : other = []
  · subst ho
    simp [Ne.symm h]
  · simp only [ho, if_false]
    exact find?_setEntry place other entry s.entries

/-! ## Places of paths -/

/-- One step of a path. -/
def step (s : Store) (place : Place) (part : String) : Except Obstacle Place :=
  match s.get? place with
  | some .directory =>
    if part = parentStep then .ok place.dropLast else .ok (place ++ [part])
  | some (.file _) => .error .notDirectory
  | none => .error .missing

/-- The place where a path begins. -/
def origin (s : Store) (p : Path) : Place :=
  if p.root.isEmpty then s.here else []

/-- The place that the steps of a path lead to. Only the directories on the way have to exist. -/
def walk (s : Store) (p : Path) : Except Obstacle Place :=
  p.parts.foldlM s.step (s.origin p)

/-- The place of a path. -/
def resolve (s : Store) (p : Path) : Except Obstacle Place :=
  if p.hasNull then .error .nullCharacter else s.walk p

/-- The place of a path by its spelling alone. -/
def spelledPlace (s : Store) (p : Path) : Place :=
  p.parts.foldl (fun place part => if part = parentStep then place.dropLast else place ++ [part])
    (s.origin p)

/-- A path is that of a directory. -/
def isDirectory (s : Store) (p : Path) : Bool :=
  match s.resolve p with
  | .ok place => match s.get? place with
    | some .directory => true
    | _ => false
  | .error _ => false

/-! ## Files -/

/-- The bytes of the file at a place. -/
def bytesIn (s : Store) (place : Place) : Except Obstacle ByteArray :=
  match s.get? place with
  | some (.file bytes) => if place ∈ s.unreadable then .error .denied else .ok bytes
  | some .directory => .error .isDirectory
  | none => .error .missing

/-- The bytes of a file. -/
def readBytes (s : Store) (p : Path) : Except Obstacle ByteArray :=
  s.resolve p >>= s.bytesIn

/-- The text of some bytes, with every line end as a line feed. -/
def textOf (bytes : ByteArray) : Except Obstacle (List Char) :=
  match Utf8.decode bytes with
  | .ok text => .ok (unifyLineEnds text)
  | .error fault => .error (.notText fault)

/-- The text of a file. -/
def readText (s : Store) (p : Path) : Except FileFault (List Char) :=
  (s.readBytes p >>= textOf).mapError (FileFault.mk p)

/-- Put an entry at a place, unless the place is closed to writing. -/
def tryPut (s : Store) (place : Place) (entry : Entry) : Except Obstacle Store :=
  if place ∈ s.unwritable then .error .denied else .ok (s.put place entry)

/-- Change the bytes of a file. A file that does not exist begins empty. -/
def changeFile (s : Store) (p : Path) (change : ByteArray → ByteArray) :
    Except FileFault Store :=
  let changed : Except Obstacle Store := do
    let place ← s.resolve p
    match s.get? place with
    | some (.file bytes) => s.tryPut place (.file (change bytes))
    | some .directory => .error .isDirectory
    | none => s.tryPut place (.file (change ByteArray.empty))
  changed.mapError (FileFault.mk p)

/-- Write the text of a file. -/
def writeText (s : Store) (p : Path) (text : List Char) : Except FileFault Store :=
  s.changeFile p fun _ => Utf8.encode text

/-- Add text to the end of a file. -/
def appendText (s : Store) (p : Path) (text : List Char) : Except FileFault Store :=
  s.changeFile p fun bytes => bytes ++ Utf8.encode text

/-! ## Directories -/

/-- Make sure that a place on the way to a directory is a directory. -/
def ensureDirectory (s : Store) (place : Place) : Except Obstacle Store :=
  match s.get? place with
  | some .directory => .ok s
  | some (.file _) => .error .exists
  | none => s.tryPut place .directory

/-- Create the directory at a place that a path goes through, if nothing stands there. What is in
the way is left for the next step to find. -/
def makeWay (s : Store) (place : Place) : Except Obstacle Store :=
  match s.get? place with
  | some _ => .ok s
  | none => s.tryPut place .directory

/-- The steps of a path, each from a directory that is created if it is missing. -/
def makeSteps (s : Store) (place : Place) : List String → Except Obstacle Store
  | [] => .ok s
  | [part] => do s.ensureDirectory (← s.step place part)
  | part :: rest => do
    let place ← s.step place part
    (← s.makeWay place).makeSteps place rest

/-- Create a directory, with all directories above it. -/
def makeDirectory (s : Store) (p : Path) : Except FileFault Store :=
  (if p.hasNull then .error .nullCharacter else s.makeSteps (s.origin p) p.parts).mapError
    (FileFault.mk p)

/-- The way from a place to one below it. -/
def below? (place : Place) (other : Place) : Option (List String) :=
  if place.isPrefixOf other && place.length < other.length then some (other.drop place.length)
  else none

/-- The files in a directory and below it, as ways from there in the order of their names. -/
def waysBelow (s : Store) (place : Place) : List (List String) :=
  let ways := s.entries.filterMap fun
    | (other, .file _) => below? place other
    | (_, .directory) => none
  ways.mergeSort fun a b => !(b < a)

/-- The files in a directory and below it. -/
def filesBelow (s : Store) (p : Path) : List Path :=
  match s.resolve p with
  | .ok place => (s.waysBelow place).map fun way => { p with parts := p.parts ++ way }
  | .error _ => []

end Store

end MarkupIndent.Files
