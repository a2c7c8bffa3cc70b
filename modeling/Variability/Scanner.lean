import Variability.Inclusion
import Variability.Job
import Variability.MakeRule

/-
  Finding out what compiled files include.

  Main definitions:
    * `Scanner`
    * `Scanner.ofCompiler`
    * `Scanner.resolve`
-/

namespace Variability

/-
  Gives a rule with the prerequisites of a file, all paths being
  relative to a source tree.
-/
abbrev Scanner := Inclusion → (sourceDir : Path) → Job String

namespace Scanner

------------------------------------------------------------
-- Compilers
------------------------------------------------------------

/- The flags of a file, and the question what it includes. -/
def arguments (i : Inclusion) : List String :=
  i.includePaths.map (fun p => "-I" ++ p.text) ++
    i.systemIncludePaths.flatMap (fun p => ["-isystem", p.text]) ++
    i.defines.map (fun (name, value) => "-D" ++ name ++ "=" ++ value) ++
    i.forced.flatMap (fun p => ["-include", p.text]) ++
    ["-M", "-MG", i.file.text]

/- What is logged if the compiler fails. -/
def failure (c : Call) (report : Report) : Log :=
  [ .error (c.program ++ " failed with the following error: " ++
      report.complaint),
    .error ("Its output was: " ++ report.output),
    .error ("The command was: " ++ c.text) ]

/- Ask a compiler what a file includes. -/
def ofCompiler (compiler : String) : Scanner := fun i sourceDir => do
  let call : Call := ⟨compiler, arguments i, sourceDir, [("LANG", "C")]⟩
  let report ← Job.run call
  if report.succeeded then
    return report.output
  else
    Job.record (failure call report)
    throw (.unresolved i.file report.exitCode report.complaint)

------------------------------------------------------------
-- Dependencies
------------------------------------------------------------

/- The warning that a file cannot be asked about. -/
def missing (file : Path) : Record :=
  .warning ("File " ++ file.text ++
    " does not exist, skipping dependency calculation")

/- Add what a file pulls in to a set of dependencies. -/
def resolveFrom
    (scanner : Scanner)
    (sourceDir : Path)
    (set : List Dependency) :
    List Inclusion → Job (List Dependency)
  | [] => pure set
  | i :: rest => do
      Job.check
      let set := Dependency.insert set (.compiled i)
      if (← get).files.exists? (sourceDir.join i.file) then
        let found := MakeRule.dependencies i (← scanner i sourceDir)
        resolveFrom scanner sourceDir
          (found.foldl Dependency.insert set) rest
      else
        Job.record [missing i.file]
        resolveFrom scanner sourceDir set rest

/-
  All dependencies of compiled files, each once. A file that is
  not there is a dependency, but is not asked about.
-/
def resolve
    (scanner : Scanner)
    (sourceDir : Path)
    (compiled : List Inclusion) :
    Job (List Dependency) :=
  resolveFrom scanner sourceDir [] compiled

end Scanner

end Variability
