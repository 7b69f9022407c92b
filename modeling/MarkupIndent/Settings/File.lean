import MarkupIndent.Settings.Merge
import MarkupIndent.Settings.Toml.Document

/-!
# The settings in force

* `effectiveSettings`: the default settings under a configuration file and overrides.
-/

namespace MarkupIndent.Settings

/-- The tables of a configuration file. A file that does not exist has none. -/
def filePayload : Option (List Char) → Except SettingsFault (List (LooseText × Value))
  | none => .ok []
  | some text => match Toml.read? text with
    | some payload => .ok payload
    | none => .error .malformedFile

/-- The settings in force under a configuration file, if it exists, and overrides. -/
def effectiveSettings (file : Option (List Char)) (o : Overrides) :
    Except SettingsFault Settings := do
  let payload ← filePayload file
  mergeSettings {} payload o

end MarkupIndent.Settings
