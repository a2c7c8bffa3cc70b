import Variability.BuildScript
import Variability.Config
import Variability.DotConfig
import Variability.Feature

/-
  How the build of a system is driven.

  Main definitions:
    * `Strategy`
    * `Strategy.ofSystem`
-/

namespace Variability

/- The steps of a build, which all work on a source tree. -/
structure Strategy where
  name : String
  naming : FeatureNaming
  /- How options start in the conditions of files. -/
  optionStart : Option String := some "CONFIG_"
  /- Bring the tree back to its unconfigured state. -/
  clean : (sourceDir : Path) → Job Unit
  /- Write the default configuration. -/
  configure : (sourceDir : Path) → Job Unit
  /- Complete a configuration that was changed by hand. -/
  complete : (sourceDir : Path) → Job Unit
  /- Make what the compiler needs to resolve dependencies. -/
  prepare : (sourceDir : Path) → Job Unit
  /- Print what a build would run, without running it. -/
  trace : (sourceDir : Path) → Job String

namespace Strategy

/- The configuration of a source tree. -/
def configPath (sourceDir : Path) : Path :=
  sourceDir.join ⟨".config"⟩

/- Whether a feature is an artifact of the model and no option. -/
def isArtifact (feature : String) : Bool :=
  (Text.after? "__VISIBILITY__" feature).isSome || feature == "Root"

/- Run make, which must not fail. -/
def make
    (program : String)
    (arguments : List String)
    (sourceDir : Path) :
    Job Unit := do
  let _ ← Job.runChecked ⟨program, arguments, sourceDir, [("LANG", "C")]⟩

/-
  Run make for what it prints. The compiler that implicit rules
  call has to be one that is known as a compiler.
-/
def makeTraced
    (program : String)
    (arguments : List String)
    (sourceDir : Path) :
    Job String := do
  let report ← Job.runChecked
    ⟨program, arguments, sourceDir, [("LANG", "C"), ("CC", "gcc")]⟩
  return report.output

/- The steps that systems have in common. -/
def common (name : String) (naming : FeatureNaming) (program : String) :
    Strategy where
  name
  naming
  clean := make program ["distclean"]
  configure := make program ["defconfig"]
  complete := make program ["oldconfig"]
  prepare := fun _ => pure ()
  trace := makeTraced program ["-in"]

/- Remove a file if it is there. -/
def removeIfThere (p : Path) : Job Unit := do
  match (← get).files.resolve false p with
  | .ok (.vacant _) | .error .notFound => pure ()
  | _ => Job.edit p (FileTree.remove p)

/-
  Snippets of its build files stand inside the sources and are
  written out. An object that is part of the final program only
  must not be there, or it would show up in the trace.
-/
def busybox (program : String) : Strategy :=
  { common "busybox"
      (.beginnings ["CONFIG_", "ENABLE_", "IF_"]) program with
    clean := fun dir => do
      make program ["distclean"] dir
      make program ["gen_build_files"] dir
    prepare := fun dir => do
      make program ["applets"] dir
      removeIfThere (dir.join ⟨"applets/applets.o"⟩) }

/- Patch the build script of a source tree. -/
def patchScript (sourceDir : Path) : Job Unit := do
  let p := sourceDir.join ⟨"scripts/make.sh"⟩
  let script ← Job.look p (·.readText p)
  let patched := BuildScript.patch script
  if patched ≠ script then
    Job.edit p (FileTree.write p (Utf8.encode patched))

/-
  The build runs a script that no dry run looks into. The script
  is patched to print only, so that it can really be run.
-/
def toybox (program : String) : Strategy :=
  { common "toybox" (.beginnings ["CONFIG_"]) program with
    prepare := patchScript
    trace := makeTraced program [] }

/- The strategy of a system whose make is some program. -/
def ofSystem (system : BuildSystem) (program : String) : Strategy :=
  match system with
  | .busybox => busybox program
  | .linux => common "linux" (.beginnings ["CONFIG_"]) program
  | .toybox => toybox program
  | .generic => common "generic" .identity program

end Strategy

end Variability
