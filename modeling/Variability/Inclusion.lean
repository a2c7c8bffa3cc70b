import Variability.Digest
import Variability.Trace

/-
  How single files are compiled, and what they pull in.

  Two inclusions are the same variant if they agree on their
  file, their forced includes and their definitions; the search
  directories do not count. Each variant is generated under a
  name of its own, which carries a digest of exactly that.

  Main definitions:
    * `Inclusion`
    * `Inclusion.ofInvocation`
    * `Inclusion.composedPath`
    * `Dependency`
    * `Arrangement`
    * `SearchPaths.ofDependencies`
-/

namespace Variability

------------------------------------------------------------
-- Inclusions
------------------------------------------------------------

/- A file with the flags that it is compiled with. -/
structure Inclusion where
  /- Relative to the source tree if the file lies inside. -/
  file : Path
  /- The forced includes, an ordered set. -/
  forced : List Path := []
  defines : Dict String String := []
  includePaths : List Path := []
  systemIncludePaths : List Path := []
  deriving DecidableEq, Repr, Inhabited

namespace Inclusion

/- An inclusion of a file in its normal form. -/
def make
    (file : Path)
    (forced : List Path)
    (defines : Dict String String)
    (includePaths systemIncludePaths : List Path) :
    Inclusion :=
  { file := file.normalize, forced, defines, includePaths,
    systemIncludePaths }

/-
  The inclusions of a compiler call, one for each file. Paths
  are resolved against the directory of the call, or `buildDir`
  if none was announced, and given relative to `sourceDir`.
-/
def ofInvocation
    (call : Invocation)
    (buildDir sourceDir : Path) :
    List Inclusion :=
  let base := call.workingDirectory.getD buildDir
  let rebase (p : String) : Path := Path.rebase ⟨p⟩ base sourceDir
  call.compiledFiles.map fun file =>
    make (rebase file)
      (Path.orderedSet (call.includes.map rebase))
      call.defines
      (call.includePaths.map rebase)
      (call.systemIncludePaths.map rebase)

/- Whether two inclusions are one variant. -/
def same (a b : Inclusion) : Bool :=
  a.file.same b.file && Path.sameAll a.forced b.forced &&
    a.defines == b.defines

/- How many lines are written before the file's own text. -/
def addedLines (i : Inclusion) : Nat :=
  i.defines.length + i.forced.length

/- A text with a zero byte behind it. -/
def terminated (s : String) : List UInt8 :=
  s.toUTF8.toList ++ [0]

/- All that identifies a variant, in bytes. -/
def identity (i : Inclusion) : List UInt8 :=
  terminated i.file.text ++
    i.forced.flatMap (fun p => terminated p.text) ++
    0 :: i.defines.flatMap fun (name, value) =>
      terminated name ++ terminated value

/- A file name at its last dot, the dot in the second part. -/
def splitName (name : List Char) : List Char × List Char :=
  match name.reverse.dropWhile (· ≠ '.') with
  | [] => (name, [])
  | _ :: stem =>
      (stem.reverse, '.' :: (name.reverse.takeWhile (· ≠ '.')).reverse)

/-
  The path of the generated file, relative to the output tree:
  beside the file, with a digest between stem and extension.
-/
def composedPath (i : Inclusion) : Path :=
  let (stem, extension) := splitName (i.file.fileName?.getD "").toList
  let name :=
    String.ofList stem ++ "-" ++
      Digest.hex (Digest.sha256 i.identity) ++
      String.ofList extension
  match i.file.parent? with
  | some directory => directory.join ⟨name⟩
  | none => ⟨name⟩

end Inclusion

------------------------------------------------------------
-- Dependencies
------------------------------------------------------------

/- A file that belongs to a variant of the project. -/
inductive Dependency where
  /- A unit that is compiled on its own. -/
  | compiled (inclusion : Inclusion)
  /- A file that others include, relative to the source tree. -/
  | header (path : Path)
  deriving DecidableEq, Repr, Inhabited

namespace Dependency

/- A header in its normal form. -/
def ofHeader (path : Path) : Dependency :=
  .header path.normalize

/- The source file of a dependency. -/
def file : Dependency → Path
  | .compiled i => i.file
  | .header p => p

/- The flags of a compiled dependency. -/
def inclusion? : Dependency → Option Inclusion
  | .compiled i => some i
  | .header _ => none

/- Whether two dependencies are the same file in the same variant. -/
def same : Dependency → Dependency → Bool
  | .compiled a, .compiled b => a.same b
  | .header p, .header q => p.same q
  | _, _ => false

/- A file outside the source tree is not copied. -/
def isExternal (d : Dependency) : Bool :=
  d.file.isAbsolute

/- Add a dependency to a set; one that is there stays. -/
def insert (set : List Dependency) (d : Dependency) : List Dependency :=
  if set.any d.same then set else set ++ [d]

end Dependency

/-
  How sets of dependencies are arranged when their members are
  visited one after the other. Any order will do.
-/
structure Arrangement where
  arrange : List Dependency → List Dependency
  perm : ∀ set, (arrange set).Perm set

/- The members as they were found. -/
def Arrangement.asFound : Arrangement :=
  ⟨id, fun set => .refl set⟩

------------------------------------------------------------
-- Search Paths
------------------------------------------------------------

/- The search directories of each composed file. -/
structure SearchPaths where
  includePaths : Dict Path (List Path) := []
  systemIncludePaths : Dict Path (List Path) := []

namespace SearchPaths

/- Add the directories of one compiled file. -/
def add (paths : SearchPaths) (i : Inclusion) : SearchPaths where
  includePaths :=
    Dict.insert i.composedPath i.includePaths paths.includePaths
  systemIncludePaths :=
    Dict.insert i.composedPath i.systemIncludePaths
      paths.systemIncludePaths

/- The directories of all compiled dependencies. -/
def ofDependencies (dependencies : List Dependency) : SearchPaths :=
  (dependencies.filterMap Dependency.inclusion?).foldl add {}

end SearchPaths

end Variability
