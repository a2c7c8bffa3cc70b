import Variability.FileTree
import Variability.Inclusion
import Variability.LineMap

/-
  From generated files back to the files they were made of.

  A generated file is its source with some lines in front.
  Lines of the source may in turn come from other files, as its
  line markers say.

  Main definitions:
    * `Origin`
    * `SourceMap`
    * `SourceMap.unmarked`
    * `SourceMap.locate`
-/

namespace Variability

/- What a generated file was made of. -/
structure Origin where
  /- Relative to the source tree. -/
  file : Path
  /- How many lines were put in front. -/
  addedLines : Nat
  deriving DecidableEq, Repr, Inhabited

/- The origins of generated files, by path in the output tree. -/
abbrev Generation := Dict Path Origin

/- The origins, and the line markers of the source files. -/
structure SourceMap where
  generation : Generation
  sourceDir : Path
  markers : Dict Path LineMap
  deriving Inhabited

namespace SourceMap

/- The markers of the sources that can be read, each read once. -/
def readMarkers
    (tree : FileTree)
    (sourceDir : Path) :
    List Origin → Dict Path LineMap → Dict Path LineMap
  | [], markers => markers
  | o :: rest, markers =>
      if (Dict.find? o.file markers).isSome then
        readMarkers tree sourceDir rest markers
      else
        match tree.readLossy (sourceDir.join o.file) with
        | .ok text =>
            readMarkers tree sourceDir rest
              (Dict.insert o.file (.ofText o.file text) markers)
        | .error _ => readMarkers tree sourceDir rest markers

/- The map of generated files whose sources lie in a directory. -/
def make
    (tree : FileTree)
    (generation : Generation)
    (sourceDir : Path) :
    SourceMap where
  generation
  sourceDir := sourceDir.normalize
  markers := readMarkers tree sourceDir (generation.map (·.2)) []

/-
  The line of the source that a line of a generated file is.
  There is none for the lines that were put in front.
-/
def unmarked (m : SourceMap) (l : Location) : Option Location :=
  match Dict.find? l.file.normalize m.generation with
  | none => none
  | some o =>
      if o.addedLines < l.line then
        some (.make o.file (l.line - o.addedLines))
      else
        none

/- A path relative to the source tree, if it lies there. -/
def relative (m : SourceMap) (p : Path) : Path :=
  if p.isAbsolute then (p.strip? m.sourceDir).getD p else p

/- Where a line of a generated file comes from, by the line markers. -/
def locate (m : SourceMap) (l : Location) : Option Location := do
  let plain ← m.unmarked l
  match Dict.find? plain.file m.markers with
  | none => return plain
  | some markers =>
      let marked ← markers.locate plain.line
      return { marked with file := m.relative marked.file }

end SourceMap

end Variability
