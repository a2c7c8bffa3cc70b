import Variability.Dict
import Variability.Job
import Variability.Text.Line
import Variability.Text.Word

/-
  Configurations of a build, one option a line.

  An option is set by a line that gives it any value, and unset
  by a comment of a fixed form. Of several lines for one option
  the last one counts; an option without a line is unset.

  Main definitions:
    * `DotConfig.readOption?`
    * `DotConfig.overlay`
    * `DotConfig.mismatches`
    * `DotConfig.write`
    * `DotConfig.verify`
-/

namespace Variability

/- Which features are to be enabled. -/
abbrev Features := Dict String Bool

namespace DotConfig

------------------------------------------------------------
-- Options
------------------------------------------------------------

/- The line that sets or unsets an option. -/
def optionLine (name : String) (enabled : Bool) : String :=
  if enabled then
    "CONFIG_" ++ name ++ "=y"
  else
    "# CONFIG_" ++ name ++ " is not set"

/- The name at the start of a text, and what stands behind it. -/
def name? (s : List Char) : Option (String × List Char) :=
  let name := s.takeWhile Text.isWord
  if name.isEmpty then
    none
  else
    some (String.ofList name, s.dropWhile Text.isWord)

/- The option that a line gives a value. -/
def valued? (line : List Char) : Option String := do
  let s ← Text.dropPrefix? "CONFIG_".toList line
  let (name, s) ← name? s
  match s with
  | '=' :: value => if value.contains '\n' then none else some name
  | _ => none

/- The option that a line says is not set. -/
def unset? (line : List Char) : Option String := do
  let s ← Text.dropPrefix? "# CONFIG_".toList line
  let (name, s) ← name? s
  if s = " is not set".toList then some name else none

/- The option that a line is about, and whether the line sets it. -/
def readOption? (line : List Char) : Option (String × Bool) :=
  match valued? line with
  | some name => some (name, true)
  | none => (unset? line).map (·, false)

------------------------------------------------------------
-- Overlaying
------------------------------------------------------------

/-
  Overlay features on lines. The first line for a feature is
  replaced unless it already agrees, and features without a line
  are added at the end.
-/
def overlayLines (features : Features) : List (List Char) → List String
  | [] => features.map fun (name, enabled) => optionLine name enabled
  | line :: rest =>
      match readOption? line with
      | none => String.ofList line :: overlayLines features rest
      | some (name, set) =>
          match Dict.find? name features with
          | none => String.ofList line :: overlayLines features rest
          | some enabled =>
              (if set = enabled then
                String.ofList line
              else
                optionLine name enabled) ::
                overlayLines (features.filter (·.1 ≠ name)) rest

/- The features that are written at all. -/
def relevant (ignore : String → Bool) (features : Features) : Features :=
  features.filter fun (name, _) => !ignore name

/- Overlay features on the text of a configuration. -/
def overlay
    (features : Features)
    (ignore : String → Bool)
    (text : String) :
    String :=
  "\n".intercalate
    (overlayLines (relevant ignore features) (Text.lines text.toList)) ++
    "\n"

------------------------------------------------------------
-- Checking
------------------------------------------------------------

/- The options that a text is about; of several lines the last one counts. -/
def options (text : String) : Features :=
  Dict.ofList ((Text.lines text.toList).filterMap readOption?)

/- The features that a text does not set as they should be. -/
def mismatches
    (features : Features)
    (ignore : String → Bool)
    (text : String) :
    Features :=
  let chosen := options text
  (relevant ignore features).filter fun (name, enabled) =>
    (Dict.find? name chosen).getD false ≠ enabled

/- The warning that a feature is not set as it should be. -/
def mismatch (name : String) (enabled : Bool) : Record :=
  .warning
    ("Option " ++ name ++ " could not be set to " ++ toString enabled ++
      "; the build system chose " ++ toString !enabled)

------------------------------------------------------------
-- Files
------------------------------------------------------------

/- Overlay features on a configuration file. -/
def write
    (p : Path)
    (features : Features)
    (ignore : String → Bool) :
    Job Unit := do
  let text ← Job.look p (·.readText p)
  Job.edit p
    (FileTree.write p (Utf8.encode (overlay features ignore text)))

/-
  The features that a configuration file does not set as they
  should be. They are logged.
-/
def verify
    (p : Path)
    (features : Features)
    (ignore : String → Bool) :
    Job (List String) := do
  let text ← Job.look p (·.readText p)
  let wrong := mismatches features ignore text
  Job.record (wrong.map fun (name, enabled) => mismatch name enabled)
  return wrong.keys

end DotConfig

end Variability
