import MarkupIndent.Audit.Time
import MarkupIndent.CommandLine.Run
import Std.Time.DateTime.Timestamp

/-!
# The program

Copies the files that the command line mentions from the disk into a store, makes the run there,
and writes back what changed, also if the run stops.
-/

namespace MarkupIndent.Main

open Files CommandLine

/-- The name on the disk of a place. -/
def diskName (place : Place) : String :=
  "/" ++ "/".intercalate place

/-- Copy a file into the store, with what it is closed to. It is opened for writing, but nothing is
written. -/
def copyFile (s : Store) (place : Place) : IO Store := do
  let name := diskName place
  let s ← try
      pure (s.put place (.file (← IO.FS.readBinFile name)))
    catch _ =>
      let closed := s.put place (.file ByteArray.empty)
      pure { closed with unreadable := place :: s.unreadable }
  try
    discard (IO.FS.Handle.mk name .append)
    return s
  catch _ => return { s with unwritable := place :: s.unwritable }

/-- Copy what stands at a place into the store. -/
def copyPlace (s : Store) (place : Place) : IO Store := do
  let name ← try IO.FS.realPath (diskName place) catch _ => return s
  if ← name.isDir then return s.put place .directory
  if ← name.pathExists then return ← copyFile s place
  return s

/-- Copy a directory and all that is below it into the store. -/
partial def copyTree (s : Store) (place : Place) : IO Store := do
  let s ← copyPlace s place
  match s.get? place with
  | some .directory =>
    let mut s := s
    for item in ← (← IO.FS.realPath (diskName place)).readDir do
      s ← copyTree s (place ++ [item.fileName])
    return s
  | _ => return s

/-- Copy all places on the way of a path into the store. -/
def copyWay (s : Store) (p : Path) : IO Store := do
  let mut s := s
  for n in [0 : p.parts.length + 1] do
    let place := s.spelledPlace { p with parts := p.parts.take n }
    for m in [1 : place.length + 1] do
      if (s.get? (place.take m)).isNone then s ← copyPlace s (place.take m)
  return s

/-- Copy all that the arguments mention into the store. -/
def copyMentioned (s : Store) (a : Arguments) : IO Store := do
  let mut s := s
  if let .value root := a.configRoot then
    s ← copyWay s ((Path.ofString root).child Settings.fileName)
  if let some (.value log) := a.auditLog then s ← copyWay s (.ofString log)
  for path in a.paths do
    let p := Path.ofString path
    s ← copyWay s p
    if let .ok place := s.resolve p then s ← copyTree s place
  return s

/-- Write the entries to the disk that are not the same in an earlier store. A file that could not be
read has only been added to. -/
def writeChanges (earlier s : Store) : IO Unit := do
  for (place, entry) in s.entries do
    if !(earlier.get? place).any entry.same then
      match entry with
      | .directory => IO.FS.createDirAll (diskName place)
      | .file bytes =>
        match earlier.bytesIn place with
        | .error .denied => (← IO.FS.Handle.mk (diskName place) .append).write bytes
        | _ => IO.FS.writeBinFile (diskName place) bytes

/-- The working directory, with nothing copied yet. -/
def workingStore : IO Store := do
  let here := Path.ofString (← IO.currentDir).toString
  return { here := here.parts, entries := [] }

/-- What is printed where the command line does not say what to do. -/
def usage : String :=
  "usage: " ++ programName ++ " [options] path [path ...]\n" ++
  "  --fix                         correct the files\n" ++
  "  --config-root DIRECTORY       where the configuration file is\n" ++
  "  --indent UNIT                 a number of spaces, or 'tab'\n" ++
  "  --align-attributes            align attributes vertically\n" ++
  "  --no-indent-script-and-style  leave script and style as they are\n" ++
  "  --max-tokens NUMBER           the most tokens of a document\n" ++
  "  --audit-log FILE              where to log each document\n"

/-- A run on the disk, and its exit status. -/
def runOnDisk (words : List String) : IO UInt32 := do
  match Arguments.ofWords words with
  | .error .help =>
    IO.print usage
    return 0
  | .error .misuse =>
    IO.eprint usage
    return 2
  | .ok a =>
    let before ← copyMentioned (← workingStore) a
    let now ← Std.Time.Timestamp.now
    let time := Audit.stamp now.toMillisecondsSinceUnixEpoch.toInt.toNat
    match run a time before with
    | .error fault after =>
      writeChanges before after
      IO.eprintln fault.message
      return 1
    | .ok ending after =>
      writeChanges before after
      IO.print ending.output
      IO.eprint ending.errors
      return ending.status.toUInt32

end MarkupIndent.Main

/-- The entry of the program. -/
def main (words : List String) : IO UInt32 :=
  MarkupIndent.Main.runOnDisk words
