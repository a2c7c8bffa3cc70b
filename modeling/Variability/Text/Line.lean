/-
  Lines of a text.

  A line ends at a line feed; a carriage return right before it
  belongs to the end. Text behind the last line feed is a line
  if it is not empty.

  Main definitions:
    * `splitOn`
    * `lines`
-/

namespace Variability

namespace Text

/- The pieces of a text between occurrences of a character. -/
def splitOn (sep : Char) : List Char → List (List Char)
  | [] => [[]]
  | c :: rest =>
      if c = sep then
        [] :: splitOn sep rest
      else
        match splitOn sep rest with
        | [] => [[c]]
        | piece :: pieces => (c :: piece) :: pieces

/- A text without the given characters at its end. -/
def dropSuffix? (suffix s : List Char) : Option (List Char) :=
  if suffix.isSuffixOf s then
    some (s.take (s.length - suffix.length))
  else
    none

/- A finished line without the carriage return of its end. -/
def dropReturn (line : List Char) : List Char :=
  (dropSuffix? ['\r'] line).getD line

/- Lines between line feeds; the last one is not finished. -/
def finishLines : List (List Char) → List (List Char)
  | [] => []
  | [last] => if last.isEmpty then [] else [last]
  | line :: rest => dropReturn line :: finishLines rest

/- The lines of a text. -/
def lines (s : List Char) : List (List Char) :=
  finishLines (splitOn '\n' s)

/- A text behind the given characters at its start. -/
def dropPrefix? (start s : List Char) : Option (List Char) :=
  if start.isPrefixOf s then some (s.drop start.length) else none

/- A string behind the given one at its start. -/
def after? (start s : String) : Option String :=
  (dropPrefix? start.toList s.toList).map String.ofList

end Text

end Variability
