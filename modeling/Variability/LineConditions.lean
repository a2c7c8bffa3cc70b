import Variability.Dict
import Variability.Fault
import Variability.Feature
import Variability.Preamble
import Variability.Preprocessor

/-
  The conditions under which the lines of a file are compiled.

  The file is preprocessed behind the definitions and forced
  includes of its inclusion. Macros that stand for features stay
  open, so the conditions do not depend on the features chosen.

  Main definitions:
    * `LineConditions`
    * `LineContext`
    * `LineConditions.extract`
-/

namespace Variability

/- The conditions of the lines of a file that have one. -/
abbrev LineConditions := Dict Nat Formula

/- What conditions are extracted with. -/
structure LineContext where
  tree : FileTree
  sourceDir : Path
  naming : FeatureNaming
  model : FeatureModel
  maxIncludeDepth : Nat

namespace LineContext

/- The place of a path that may be relative to the source tree. -/
def absolute (x : LineContext) (p : Path) : Path :=
  if p.isAbsolute then p else x.sourceDir.join p

/- Whether a macro stands for a known feature. -/
def isFree (x : LineContext) (name : String) : Bool :=
  (x.naming.feature? name).any x.model.contains

/- What a macro is called in conditions: its feature, if it has one. -/
def rename (x : LineContext) (name : String) : String :=
  (x.naming.feature? name).getD name

/- How a file is preprocessed. -/
def settings (x : LineContext) (i : Inclusion) : Preprocessor.Settings where
  tree := x.tree
  includePaths := i.includePaths.map x.absolute
  systemIncludePaths := i.systemIncludePaths.map x.absolute
  maxDepth := x.maxIncludeDepth
  isFree := x.isFree

/- The directives that say the same as the flags of a file. -/
def commandLine (x : LineContext) (i : Inclusion) : String :=
  String.join (i.defines.map fun (name, value) =>
    Inclusion.defineLine name value) ++
  String.join (i.forced.map fun p => Inclusion.includeLine (x.absolute p))

/- Preprocess a file behind its flags. -/
def preprocess
    (x : LineContext)
    (i : Inclusion) :
    Preprocessor.Run (Except FileError (List Condition)) := do
  let path := x.absolute i.file
  let settings := x.settings i
  Preprocessor.injectBuiltins settings
  Preprocessor.inject settings
    (path.withFileName "<command-line>") (x.commandLine i)
  Preprocessor.run settings path

end LineContext

namespace LineConditions

/- The place of a line in messages. -/
def placeText (file : Path) (line : Nat) : String :=
  file.text ++ ":" ++ toString line

/- The warning that a condition is not about macros only. -/
def unconvertible (file : Path) (line : Nat) : Record :=
  .warning
    ("Could not convert presence condition to a formula at " ++
      placeText file line)

/-
  Pair conditions with their formulas. Equal conditions that
  follow each other are converted once.
-/
def withFormulas
    (convert : Condition → Option Formula)
    (last : Option (Condition × Option Formula)) :
    List Condition → List (Option Formula)
  | [] => []
  | c :: rest =>
      match last with
      | some (d, f) =>
          if c = d then
            f :: withFormulas convert last rest
          else
            let g := convert c
            g :: withFormulas convert (some (c, g)) rest
      | none =>
          let g := convert c
          g :: withFormulas convert (some (c, g)) rest

/- The conditions of lines over known features, from one line on. -/
def ofFormulas
    (model : FeatureModel)
    (file : Path)
    (line : Nat) :
    List (Option Formula) → LineConditions × Log
  | [] => ([], [])
  | none :: rest =>
      let (conditions, log) := ofFormulas model file (line + 1) rest
      (conditions, unconvertible file line :: log)
  | some f :: rest =>
      let (g, changes) := model.sanitize (placeText file line) f
      let (conditions, log) := ofFormulas model file (line + 1) rest
      ((line, g) :: conditions, changes ++ log)

/-
  The conditions of the lines of a file, and what is logged on
  the way. Nothing stays in the space but its atoms.
-/
def extract
    (x : LineContext)
    (i : Inclusion) :
    InSpace (Except Fault LineConditions × Log) := fun space =>
  let (result, state) := x.preprocess i (.start space)
  match result with
  | .error e =>
      ((.error (.file (x.absolute i.file) e), state.log),
        state.space.collectGarbage [])
  | .ok reached =>
      let formulas :=
        withFormulas (state.space.toFormula x.rename) none reached
      let (conditions, log) := ofFormulas x.model i.file 1 formulas
      ((.ok conditions, state.log ++ log),
        state.space.collectGarbage [])

/- The condition of a line. -/
def find? (conditions : LineConditions) (line : Nat) : Option Formula :=
  Dict.find? line conditions

end LineConditions

end Variability
