import Variability.Job
import Variability.Preamble
import Variability.SourceMap

/-
  Writing the files that variants consist of.

  A header is copied as it is. A compiled file is written once
  for each way to compile it, under a name of its own and behind
  a preamble that says the same as its flags.

  Main definitions:
    * `Generation.targets`
    * `Generation.generate`
-/

namespace Variability

namespace Generation

/- The dependencies inside the source tree, by their files. -/
def targets (dependencies : List Dependency) : Dict Path (List Dependency) :=
  (dependencies.filter (!·.isExternal)).foldl
    (fun groups d =>
      Dict.insert d.file
        ((Dict.find? d.file groups).getD [] ++ [d]) groups)
    []

/- Write a compiled file. -/
def writeCompiled
    (source destination : Path)
    (i : Inclusion) :
    Job (Path × Origin) := do
  let target := destination.join i.composedPath
  let content ← Job.look source (·.read source)
  Job.edit target
    (FileTree.write target (Utf8.encode i.preamble ++ content))
  return (i.composedPath, ⟨i.file, i.addedLines⟩)

/- Copy a header. -/
def copyHeader
    (source destination file : Path) :
    Job (Path × Origin) := do
  let target := destination.join file
  Job.edit target (FileTree.copyFile source target)
  return (file, ⟨file, 0⟩)

/- Write the dependencies of one file, which is a header at most once. -/
def writeEach
    (source destination file : Path)
    (copied : Bool) :
    List Dependency → Job (List (Path × Origin))
  | [] => pure []
  | .compiled i :: rest => do
      let made ← writeCompiled source destination i
      return made :: (← writeEach source destination file copied rest)
  | .header _ :: rest => do
      if copied then
        writeEach source destination file copied rest
      else
        let made ← copyHeader source destination file
        return made :: (← writeEach source destination file true rest)

/- The warning that a file is not there. -/
def missing (file : Path) : Record :=
  .warning ("File " ++ file.text ++ " does not exist, not generating.")

/- Write all dependencies of one file. -/
def writeFile
    (sourceDir destination file : Path)
    (dependencies : List Dependency) :
    Job (List (Path × Origin)) := do
  let source := sourceDir.join file
  if (← get).files.exists? source then
    if let some directory := (destination.join file).parent? then
      Job.edit directory (FileTree.makeDirectories directory)
    writeEach source destination file false dependencies
  else
    Job.record [missing file]
    return []

/- Write dependencies file by file. -/
def writeAll
    (sourceDir destination : Path) :
    Dict Path (List Dependency) → Job (List (Path × Origin))
  | [] => pure []
  | (file, dependencies) :: rest => do
      let made ← writeFile sourceDir destination file dependencies
      return made ++ (← writeAll sourceDir destination rest)

/- Write dependencies below a directory. -/
def generate
    (dependencies : List Dependency)
    (sourceDir destination : Path) :
    Job Generation := do
  return Dict.ofList
    (← writeAll sourceDir destination (targets dependencies))

end Generation

end Variability
