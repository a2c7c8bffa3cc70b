import Variability.Inclusion

/-
  Flags of a file as directives in front of its text.

  Main definitions:
    * `Inclusion.preamble`
-/

namespace Variability

namespace Inclusion

/- The directive for a definition. -/
def defineLine (name value : String) : String :=
  "#define " ++ name ++ " " ++ value ++ "\n"

/- The path that a file includes a forced include by. -/
def forcedPath (i : Inclusion) (p : Path) : Path :=
  if p.isAbsolute then
    p
  else
    p.relativeTo (i.file.parent?.getD ⟨""⟩)

/- The directive for a forced include. -/
def includeLine (p : Path) : String :=
  "#include \"" ++ p.text ++ "\"\n"

/- The directives for all definitions and forced includes. -/
def preamble (i : Inclusion) : String :=
  String.join (i.defines.map fun (name, value) =>
    defineLine name value) ++
  String.join (i.forced.map fun p => includeLine (i.forcedPath p))

end Inclusion

end Variability
