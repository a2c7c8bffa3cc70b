import Variability.Dict
import Variability.Fault
import Variability.Feature
import Variability.JsonText.Value
import Variability.Smt.Formula

/-
  The conditions under which whole files are compiled.

  They are read from an object whose keys are paths of files and
  whose values are scripts that assert the conditions.

  Main definitions:
    * `FileConditions`
    * `FileConditions.find?`
    * `FileConditions.ofJson`
-/

namespace Variability

/- The conditions of files, by paths relative to the source tree. -/
abbrev FileConditions := Dict Path Formula

namespace FileConditions

/- Set the condition of a file. -/
def insert
    (p : Path)
    (f : Formula)
    (conditions : FileConditions) :
    FileConditions :=
  Dict.insert p.normalize f conditions

/-
  The condition of a file, or else that of the object file that
  it is compiled to.
-/
def find? (conditions : FileConditions) (p : Path) : Option Formula :=
  (Dict.find? p.normalize conditions).or
    (Dict.find? (p.normalize.withExtension "o") conditions)

------------------------------------------------------------
-- Reading
------------------------------------------------------------

/- The texts in an object, by their keys. -/
def readScripts : JsonText.Value → JsonText.Reading (Dict String String)
  | .nest true inner =>
      JsonText.foldMembers
        (fun scripts key v => do
          return Dict.insert key (← v.string) scripts)
        [] inner
  | v => .error v.otherForm

/- The warning that an option does not start as options do. -/
def unusual (file start option : String) : Record :=
  .warning
    ("Option in presence condition does not start with " ++ start ++
      ": " ++ option ++ "; file: " ++ file)

/- The feature that an option stands for. -/
def featureOf (start : Option String) (option : String) : String :=
  (start.bind (Text.after? · option)).getD option

/- Warnings of all options that do not start as options do. -/
def unusualOptions
    (file : String)
    (start : Option String)
    (f : Formula) :
    Log :=
  match start with
  | none => []
  | some start =>
      (f.literals.filter fun option =>
        (Text.after? start option).isNone).map (unusual file start)

/- A path relative to the source tree, if it lies there. -/
def relativePath (sourceDir p : Path) : Path :=
  if p.isAbsolute then (p.strip? sourceDir).getD p else p

/- Read the script of one file. -/
def addScript
    (sourceDir : Path)
    (start : Option String)
    (model : FeatureModel)
    (conditions : FileConditions)
    (file script : String) :
    Except Fault FileConditions × Log :=
  match Smt.parse script with
  | .error e => (.error (.unreadable file e.offset? e.message), [])
  | .ok f =>
      let (g, log) := model.sanitize file (f.rename (featureOf start))
      (.ok (conditions.insert (relativePath sourceDir ⟨file⟩) g),
        unusualOptions file start f ++ log)

/- Read the scripts of files one after the other. -/
def addScripts
    (sourceDir : Path)
    (start : Option String)
    (model : FeatureModel)
    (conditions : FileConditions) :
    Dict String String → Except Fault FileConditions × Log
  | [] => (.ok conditions, [])
  | (file, script) :: rest =>
      match addScript sourceDir start model conditions file script with
      | (.error e, log) => (.error e, log)
      | (.ok conditions, log) =>
          let (result, further) :=
            addScripts sourceDir start model conditions rest
          (result, log ++ further)

/-
  The conditions that a text gives, and what is logged on the
  way. Options start as `start` says, and features do not.
-/
def ofJson
    (sourceDir : Path)
    (start : Option String)
    (model : FeatureModel)
    (text : String) :
    Except Fault FileConditions × Log :=
  match JsonText.readWhole readScripts text with
  | .error flaw => (.error (.json flaw), [])
  | .ok scripts => addScripts sourceDir start model [] scripts

end FileConditions

end Variability
