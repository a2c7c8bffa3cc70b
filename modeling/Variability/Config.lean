import Variability.JsonText.Value
import Variability.Path

/-
  The settings of a composition.

  Main definitions:
    * `BuildSystem`
    * `Config`
    * `Config.ofJson`
-/

namespace Variability

------------------------------------------------------------
-- Systems
------------------------------------------------------------

/- The build systems that are known by name. -/
inductive BuildSystem where
  | busybox
  | linux
  | toybox
  | generic
  deriving DecidableEq, Repr, Inhabited

namespace BuildSystem

/- The name of a system. -/
def text : BuildSystem → String
  | .busybox => "busybox"
  | .linux => "linux"
  | .toybox => "toybox"
  | .generic => "generic"

/- All systems. -/
def all : List BuildSystem :=
  [.busybox, .linux, .toybox, .generic]

/- The system with a name. -/
def ofName? (name : String) : Option BuildSystem :=
  all.find? (·.text == name)

/- The system with a name in letters of any case. -/
def ofText? (text : String) : Option BuildSystem :=
  ofName? (String.ofList (text.toList.map Char.toLower))

end BuildSystem

------------------------------------------------------------
-- Settings
------------------------------------------------------------

/- The settings of a composition. -/
structure Config where
  system : BuildSystem := .generic
  /- The root of the sources, which are not changed. -/
  source : Path := ⟨""⟩
  /- A directory that belongs to one composer. -/
  tmpDir : Path := ⟨"/tmp/variant-composer"⟩
  /- Whether presence conditions are looked for. -/
  presenceConditions : Bool := true
  /- The conditions of files, by the scripts that assert them. -/
  fileConditions : Option Path := none
  /- Files of which only the condition of the whole is known. -/
  presenceConditionExcludes : List Path := []
  compiler : String := "gcc"
  make : String := "make"
  maxIncludeDepth : Nat := 200
  deriving DecidableEq, Repr, Inhabited

namespace Config

/- Where the sources are copied to. -/
def sourceCopyDir (c : Config) : Path :=
  c.tmpDir.join ⟨"source"⟩

------------------------------------------------------------
-- Reading
------------------------------------------------------------

open JsonText

/- The system that a name in a text stands for. -/
def readSystemName (name : String) : Reading BuildSystem :=
  match BuildSystem.ofName? name with
  | some system => .ok system
  | none => .error .mismatched

/- What stands behind the name of a system in an object. -/
def readSystemRest (system : BuildSystem) : Items → Reading BuildSystem
  | .atom .colon (.atom t rest) =>
      match t, rest with
      | .word (.ok .null), .close true => .ok system
      | .word (.ok .null), rest => .error rest.flaw
      | t, _ => .error (Value.token t).otherForm
  | .atom .colon (.nest _ _ _) => .error .mismatched
  | .atom .colon rest => .error rest.flaw
  | rest => .error rest.flaw

/- A system, by its name or as the key of null. -/
def readSystem : Value → Reading BuildSystem
  | .token (.string read _) => do readSystemName (← read)
  | .nest true (.atom t rest) => do
      let name ← (Value.token t).string
      readSystemRest (← readSystemName name) rest
  | .nest true (.nest _ _ _) => .error .mismatched
  | .nest true rest => .error rest.flaw
  | .missing f => .error f
  | _ => .error .malformed

/- A path. -/
def readPath (v : Value) : Reading Path :=
  Path.mk <$> v.string

/- A set of paths, of which the first of equal ones stays. -/
def readPaths (v : Value) : Reading (List Path) := do
  let paths ← v.array readPath
  return paths.foldl (fun set p => Path.insertOrdered p set) []

/- A setting: its name, and how its value is read. -/
structure Field where
  name : String
  read : Value → Config → Reading Config

/- The settings in the order in which an array gives them. -/
def fields : List Field :=
  [ ⟨"system", fun v c => do
      return { c with system := ← readSystem v }⟩,
    ⟨"source", fun v c => do
      return { c with source := ← readPath v }⟩,
    ⟨"tmp_dir", fun v c => do
      return { c with tmpDir := ← readPath v }⟩,
    ⟨"presence_conditions", fun v c => do
      return { c with presenceConditions := ← v.boolean }⟩,
    ⟨"file_conditions", fun v c => do
      return { c with fileConditions := ← v.optional readPath }⟩,
    ⟨"presence_condition_excludes", fun v c => do
      return { c with presenceConditionExcludes := ← readPaths v }⟩,
    ⟨"compiler", fun v c => do
      return { c with compiler := ← v.string }⟩,
    ⟨"make", fun v c => do
      return { c with make := ← v.string }⟩,
    ⟨"max_include_depth", fun v c => do
      return { c with maxIncludeDepth := ← v.natural }⟩ ]

/- Read a member; a setting is given once, other members are skipped. -/
def addMember
    (state : Config × List String)
    (key : String)
    (v : Value) :
    Reading (Config × List String) := do
  let (c, seen) := state
  match fields.find? (·.name == key) with
  | none =>
      v.skip
      return (c, seen)
  | some field =>
      if seen.contains key then
        .error .mismatched
      else
        return (← field.read v c, key :: seen)

/- Read the first settings from the elements of an array. -/
def readElements : List Field → List Value → Config → Reading Config
  | field :: fields, v :: values, c => do
      readElements fields values (← field.read v c)
  | _, _, c => .ok c

/- The settings that a value gives; the others have their defaults. -/
def readValue : Value → Reading Config
  | .nest true inner => do
      return (← foldMembers addMember ({}, []) inner).1
  | .nest false inner => do
      let (values, left) := elements fields.length inner
      let c ← readElements fields values {}
      finishArray (← left)
      return c
  | v => .error v.otherForm

/- The settings that a text gives. -/
def ofJson (text : String) : Reading Config :=
  readWhole readValue text

end Config

end Variability
