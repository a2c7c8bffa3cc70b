import Variability.Inclusion
import Variability.Text.Blank

/-
  Make rules that list what a file needs.

  Main definitions:
    * `MakeRule.prerequisites`
    * `MakeRule.dependencies`
-/

namespace Variability

/- The endings of headers. -/
def headerEndings : List String :=
  [".h", ".H", ".hpp", ".hxx", ".h++"]

/- Whether a path names a header. -/
def isHeader (path : String) : Bool :=
  !path.toList.contains '\n' &&
    headerEndings.any fun ending =>
      ending.toList.isSuffixOf path.toList

namespace MakeRule

/- The text behind the first colon, all of it if there is none. -/
def behindColon (rule : List Char) : List Char :=
  match rule.dropWhile (· ≠ ':') with
  | [] => rule
  | _ :: rest => rest

/- What a rule says is needed: the words behind the colon, without backslashes. -/
def prerequisites (rule : String) : List String :=
  (Text.words ((behindColon rule.toList).filter (· ≠ '\\'))).map
    String.ofList

/-
  What a prerequisite of a file means: a header is included, and
  any other file is compiled with the same flags, except that it
  is not forced into itself.
-/
def dependency (i : Inclusion) (prerequisite : String) : Dependency :=
  if isHeader prerequisite then
    .ofHeader ⟨prerequisite⟩
  else
    .compiled
      (.make ⟨prerequisite⟩
        (i.forced.filter fun p => !p.same ⟨prerequisite⟩)
        i.defines i.includePaths i.systemIncludePaths)

/- The dependencies of a file by the rule that was made for it. -/
def dependencies (i : Inclusion) (rule : String) : List Dependency :=
  (prerequisites rule).map (dependency i)

end MakeRule

end Variability
