import Variability.FileConditions
import Variability.LineConditions
import Variability.SourceMap

/-
  The conditions under which the lines of generated files are
  part of the product.

  A line is present if its source file is compiled and the
  preprocessor keeps it there. If one of the two conditions is
  not known, the whole is not known either.

  Main definitions:
    * `Presence`
    * `Presence.condition`
-/

namespace Variability

/- What is known about the presence of generated lines. -/
structure Presence where
  sources : SourceMap
  files : FileConditions
  /- By generated files, which are ways to compile a source. -/
  lines : Dict Path LineConditions
  /- Generated files of which only the whole is known. -/
  wholeOnly : List Path

namespace Presence

/- The conditions of files and lines together. -/
def make
    (sources : SourceMap)
    (files : FileConditions)
    (lines : List (Path × LineConditions))
    (wholeOnly : List Path) :
    Presence where
  sources
  files
  lines := Dict.ofList (lines.map fun (p, c) => (p.normalize, c))
  wholeOnly := wholeOnly.map Path.normalize

/- Nothing is known, and a warning says what is missing. -/
def unknown (missing subject : String) : Option Formula × Log :=
  (none, [.warning ("No " ++ missing ++ " found for " ++ subject)])

/- The condition of a line of a source, seen from a generated file. -/
def lineCondition (p : Presence) (conditions : LineConditions) (l : Location) :
    Option Formula :=
  (p.sources.unmarked l).bind fun plain => conditions.find? plain.line

/- The condition of a line whose source has a condition. -/
def conditionWithin
    (p : Presence)
    (l : Location)
    (whole : Formula) :
    Option Formula × Log :=
  if p.wholeOnly.any (·.same l.file) then
    ((p.sources.unmarked l).map fun _ => whole, [])
  else
    match Dict.find? l.file p.lines with
    | none => unknown "line presence conditions" l.file.text
    | some conditions =>
        match p.lineCondition conditions l with
        | none => unknown "line presence condition" l.text
        | some f => (some (.and whole f), [])

/- The condition of a line of a generated file, if it is known. -/
def condition (p : Presence) (l : Location) : Option Formula × Log :=
  match p.sources.locate l with
  | none => unknown "original location" l.text
  | some source =>
      match p.files.find? source.file with
      | none => unknown "file presence condition" source.file.text
      | some whole => p.conditionWithin l whole

end Presence

end Variability
