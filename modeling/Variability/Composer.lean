import Variability.FileTree.Copy
import Variability.Generation
import Variability.Presence
import Variability.Scanner
import Variability.Strategy

/-
  Composing the sources of one configuration.

  A composer takes its steps in a fixed order on a copy of the
  sources. A step that fails leads to the stage `failed`, from
  which no step leads on. A composer that has composed one
  configuration can compose the next on the same copy.

  Main definitions:
    * `Composer`
    * `Composition`
    * `Composing`
    * `Composer.compose`
-/

namespace Variability

------------------------------------------------------------
-- Composers
------------------------------------------------------------

/- A composer, and what it has found out. -/
structure Composer where
  config : Config
  strategy : Strategy
  scanner : Scanner
  model : FeatureModel
  /- In which order the dependencies are visited. -/
  arrangement : Arrangement := .asFound
  stage : Stage := .initialized
  /- The conditions of files, once they were read. -/
  fileConditions : Option FileConditions := none
  dependencies : List Dependency := []
  generation : Generation := []

/- The result of composing one configuration. -/
structure Composition where
  /- The root of the composed tree. -/
  output : Path
  features : Features
  sources : SourceMap
  /- There is none if nothing is known about presence. -/
  presence : Option Presence
  searchPaths : SearchPaths

namespace Composition

/- The condition of a line of a composed file, if it is known. -/
def condition (c : Composition) (l : Location) : Option Formula × Log :=
  match c.presence with
  | some p => p.condition l
  | none => (none, [])

end Composition

/- A computation that moves a composer on. -/
abbrev Composing := ExceptT Fault (StateT Composer (StateM Workspace))

namespace Composer

/- The composer of a configuration, which calls its programs. -/
def ofConfig (config : Config) (model : FeatureModel) : Composer where
  config
  strategy := .ofSystem config.system config.make
  scanner := .ofCompiler config.compiler
  model

/-
  Take a step that leads from one stage to the next. At another
  stage it is refused and nothing changes.
-/
def step
    {α : Type}
    (expected next : Stage)
    (work : Composer → Job (α × Composer)) :
    Composing α := fun c => do
  if c.stage ≠ expected then
    return (.error (.stage c.stage expected), c)
  else
    match ← ExceptT.run (work c) with
    | .ok (a, done) => return (.ok a, { done with stage := next })
    | .error e => return (.error e, { c with stage := .failed })

/- Take a step that leaves nothing to remember. -/
def simpleStep
    (expected next : Stage)
    (work : Composer → Job Unit) :
    Composing Unit :=
  step expected next fun c => do
    work c
    return ((), c)

/- The copy of the sources. -/
def sourceDir (c : Composer) : Path :=
  c.config.sourceCopyDir

------------------------------------------------------------
-- Steps
------------------------------------------------------------

/- Copy a tree. -/
def copyTree (source target : Path) : Job Unit := fun w =>
  match FileTree.copyTree source target w.files with
  | (.ok (), files) => (.ok (), { w with files })
  | (.error (p, e), files) => (.error (.file p e), { w with files })

/- Copy the sources, unless a copy is there. -/
def copySource : Composing Unit :=
  simpleStep .initialized .sourceCopied fun c => do
    if (← get).files.exists? c.sourceDir then
      pure ()
    else
      copyTree c.config.source c.sourceDir

/- The warning that not all options could be set. -/
def unsettable (count : Nat) : Record :=
  .warning (toString count ++ " options could not be set")

/- Configure the copy for some features, from the default on. -/
def writeConfig (features : Features) : Composing Unit :=
  simpleStep .sourceCopied .configWritten fun c => do
    let file := Strategy.configPath c.sourceDir
    c.strategy.clean c.sourceDir
    c.strategy.configure c.sourceDir
    DotConfig.write file features Strategy.isArtifact
    c.strategy.complete c.sourceDir
    let wrong ← DotConfig.verify file features Strategy.isArtifact
    if ¬ wrong.isEmpty then
      Job.record [unsettable wrong.length]

/- Make what the compiler needs. -/
def prepare : Composing Unit :=
  simpleStep .configWritten .prepared fun c =>
    c.strategy.prepare c.sourceDir

/- The calls of a trace. -/
def invocations (trace : String) : Job (List Invocation) := do
  match Trace.invocations trace with
  | .error e => throw (.ofCommands e)
  | .ok (calls, log) =>
      Job.record log
      return calls

/- Find out what is compiled and what that includes. -/
def resolve : Composing Unit :=
  step .prepared .resolved fun c => do
    let calls ← invocations (← c.strategy.trace c.sourceDir)
    let compiled := calls.flatMap fun call =>
      Inclusion.ofInvocation call c.sourceDir c.sourceDir
    let found ← c.scanner.resolve c.sourceDir compiled
    return ((), { c with dependencies := c.arrangement.arrange found })

/- Write the composed tree. -/
def generate (destination : Path) : Composing Unit :=
  step .resolved .generated fun c => do
    Job.edit destination (FileTree.makeDirectories destination)
    let generation ←
      Generation.generate c.dependencies c.sourceDir destination
    return ((), { c with generation })

------------------------------------------------------------
-- Presence
------------------------------------------------------------

/- Read the conditions of files, if there are any. -/
def readFileConditions (c : Composer) : Job (Option FileConditions) := do
  match c.fileConditions, c.config.fileConditions with
  | some files, _ => return some files
  | none, none => return none
  | none, some p =>
      let text ← Job.look p (·.readText p)
      let (result, log) :=
        FileConditions.ofJson c.sourceDir c.strategy.optionStart
          c.model text
      Job.record log
      return some (← liftExcept result)
  where
    /- A failure of the job. -/
    liftExcept {α : Type} : Except Fault α → Job α
      | .ok a => pure a
      | .error e => throw e

/- Extract the conditions of the lines of a file. -/
def extractLines (c : Composer) (i : Inclusion) : Job LineConditions :=
  fun w =>
    let x : LineContext :=
      ⟨w.files, c.sourceDir, c.strategy.naming, c.model,
        c.config.maxIncludeDepth⟩
    let ((result, log), space) := LineConditions.extract x i w.space
    (result, { w with space, log := w.log ++ log })

/- Whether only the condition of the whole file is asked for. -/
def isExcluded (c : Composer) (file : Path) : Bool :=
  c.config.presenceConditionExcludes.any fun p =>
    p.normalize.same file

/- Whether a compiled file was generated. -/
def isGenerated (c : Composer) (t : FileTree) (i : Inclusion) : Bool :=
  !i.file.isAbsolute && t.exists? (c.sourceDir.join i.file) &&
    (Dict.find? i.composedPath c.generation).isSome

/-
  The conditions of the lines of generated files, and the
  generated files that are excluded.
-/
def lineConditions (c : Composer) :
    List Inclusion → Job (List (Path × LineConditions) × List Path)
  | [] => pure ([], [])
  | i :: rest => do
      Job.check
      if c.isGenerated (← get).files i then
        if c.isExcluded i.file then
          let (lines, excluded) ← lineConditions c rest
          return (lines, i.composedPath :: excluded)
        else
          let conditions ← c.extractLines i
          let (lines, excluded) ← lineConditions c rest
          return ((i.composedPath, conditions) :: lines, excluded)
      else
        lineConditions c rest

/- The warning that nothing is known about presence. -/
def noFileConditions (c : Composer) : Record :=
  .warning
    ("No file presence conditions available for " ++ c.strategy.name ++
      ", all presence conditions are unknown")

/- What is known about presence, and the conditions that were read. -/
def findPresence
    (c : Composer)
    (sources : SourceMap) :
    Job (Option Presence × Option FileConditions) := do
  if ¬ c.config.presenceConditions then
    return (none, c.fileConditions)
  match ← c.readFileConditions with
  | none =>
      Job.record [c.noFileConditions]
      return (none, none)
  | some files =>
      let compiled := c.dependencies.filterMap Dependency.inclusion?
      let (lines, excluded) ← c.lineConditions compiled
      return (some (.make sources files lines excluded), some files)

/- Find out where the lines of the composed tree come from. -/
def finish
    (features : Features)
    (destination : Path) :
    Composing Composition :=
  step .generated .composed fun c => do
    let sources :=
      SourceMap.make (← get).files c.generation c.sourceDir
    let (presence, fileConditions) ← c.findPresence sources
    let composition : Composition :=
      { output := destination
        features
        sources
        presence
        searchPaths := .ofDependencies c.dependencies }
    return (composition, { c with fileConditions })

------------------------------------------------------------
-- Compositions
------------------------------------------------------------

/- Go back to the copy of the sources after a composition. -/
def restart : Composing Unit := fun c => do
  if c.stage = .composed then
    return (.ok (),
      { c with stage := .sourceCopied, dependencies := [],
               generation := [] })
  else
    return (.ok (), c)

/- Copy the sources if that was not done. -/
def start : Composing Unit := fun c =>
  if c.stage = .initialized then
    copySource c
  else
    pure (.ok (), c)

/-
  Take all steps for some features. A composer that has composed
  before starts again from its copy of the sources.
-/
def compose
    (features : Features)
    (destination : Path) :
    Composing Composition := do
  restart
  start
  writeConfig features
  prepare
  resolve
  generate destination
  finish features destination

end Composer

end Variability
