import Variability.Formula
import Variability.Log
import Variability.Text.Line

/-
  The features of a project, and the macros that stand for them.

  Main definitions:
    * `FeatureNaming`
    * `FeatureModel`
    * `FeatureModel.sanitize`
-/

namespace Variability

------------------------------------------------------------
-- Naming
------------------------------------------------------------

/- How macros are named after features. -/
inductive FeatureNaming where
  /- A macro has the name of its feature. -/
  | identity
  /- One of some beginnings stands before the feature. -/
  | beginnings (starts : List String)
  deriving DecidableEq, Repr, Inhabited

namespace FeatureNaming

/-
  The feature that a macro stands for. Only the first beginning
  that fits counts, and a feature has a name.
-/
def feature? (naming : FeatureNaming) (name : String) : Option String :=
  match naming with
  | .identity => some name
  | .beginnings starts =>
      match starts.findSome? (Text.after? · name) with
      | some feature => if feature.isEmpty then none else some feature
      | none => none

/- The macros that stand for a feature. -/
def macroNames (naming : FeatureNaming) (feature : String) : List String :=
  match naming with
  | .identity => [feature]
  | .beginnings starts => starts.map (· ++ feature)

end FeatureNaming

------------------------------------------------------------
-- Models
------------------------------------------------------------

/- The known features, in order, each once. -/
structure FeatureModel where
  features : List String
  deriving DecidableEq, Repr, Inhabited

namespace FeatureModel

/- The model of some features. -/
def ofList (names : List String) : FeatureModel :=
  ⟨names.foldl (fun known name => Formula.insertName name known) []⟩

/- Whether a feature is known. -/
def contains (m : FeatureModel) (name : String) : Bool :=
  m.features.contains name

/- The names in a formula that are no features. -/
def unknown (m : FeatureModel) (f : Formula) : List String :=
  f.names.filter (!m.contains ·)

/- A literal, or false if it is no feature. -/
def known (m : FeatureModel) (name : String) : Formula :=
  if m.contains name then .literal name else .falsity

/- The warning that a formula was changed. -/
def changed
    (context : String)
    (unknown : List String)
    (f g : Formula) :
    Record :=
  .warning
    ("Presence condition contains unknown features: " ++
      ", ".intercalate unknown ++ "; file: " ++ context ++
      " Changed from " ++ f.text ++ " to " ++ g.text)

/-
  Put false in place of every literal that is no feature, and
  log it. A formula without such literals stays as it is.
-/
def sanitize
    (m : FeatureModel)
    (context : String)
    (f : Formula) :
    Formula × Log :=
  if m.unknown f = [] then
    (f, [])
  else
    let g := (f.mapLiterals m.known).simplify
    (g, [changed context (m.unknown f) f g])

end FeatureModel

end Variability
