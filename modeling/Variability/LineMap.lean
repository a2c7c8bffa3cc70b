import Variability.Location
import Variability.Text.Blank
import Variability.Text.Line
import Variability.Text.Word

/-
  Line markers in source texts.

  A marker says which line of which file the next line is; the
  lines behind it count on. A marker that names no file stays
  with the file of the last one.

  Main definitions:
    * `foldContinuations`
    * `Marker.read?`
    * `LineMap.ofText`
    * `LineMap.locate`
-/

namespace Variability

------------------------------------------------------------
-- Continued Lines
------------------------------------------------------------

/- Whether a line goes on with the next one. -/
def isContinued (line : List Char) : Bool :=
  (Text.trimEnd line).getLast? == some '\\'

/- A line in front of its last backslash. -/
def beforeBackslash (line : List Char) : List Char :=
  ((line.reverse.dropWhile (· ≠ '\\')).drop 1).reverse

/-
  Join continued lines, `start` being the beginning of the
  first one. A joined line stands in the last of its places, and
  the others are empty. The last line is not continued.
-/
def foldFrom (start : List Char) : List (List Char) → List (List Char)
  | [] => []
  | [line] => [start ++ line]
  | line :: next :: rest =>
      if isContinued (start ++ line) then
        [] :: foldFrom (beforeBackslash (start ++ line)) (next :: rest)
      else
        (start ++ line) :: foldFrom [] (next :: rest)

/- The lines of a text, continued lines joined. -/
def foldContinuations (text : String) : List (List Char) :=
  foldFrom [] (Text.lines text.toList)

------------------------------------------------------------
-- Markers
------------------------------------------------------------

/- What a marker says about the next line. -/
structure Marker where
  number : List Char
  file : Option (List Char)
  deriving DecidableEq, Repr

namespace Marker

open Text

/- A text behind the blanks at its start. -/
def skip (s : List Char) : List Char :=
  s.dropWhile isBlank

/- A text behind at least one blank. -/
def skipSome (s : List Char) : Option (List Char) :=
  match s with
  | c :: rest => if isBlank c then some (skip rest) else none
  | [] => none

/- Digits, and the text behind them. -/
def digits? (s : List Char) : Option (List Char × List Char) :=
  let digits := s.takeWhile isDigit
  if digits.isEmpty then
    none
  else
    some (digits, s.dropWhile isDigit)

/- A name between quotes, and the text behind it. -/
def fileName? (s : List Char) : Option (List Char × List Char) :=
  match s with
  | '"' :: rest =>
      let name := rest.takeWhile (· ≠ '"')
      match rest.dropWhile (· ≠ '"') with
      | _ :: rest => if name.isEmpty then none else some (name, rest)
      | [] => none
  | _ => none

/- A text behind blanks and a hash. -/
def afterHash (s : List Char) : Option (List Char) :=
  (dropPrefix? ['#'] (skip s)).map skip

/- The marker `#line NUMBER` or `#line NUMBER "FILE"`. -/
def directive? (s : List Char) : Option Marker := do
  let s ← afterHash s
  let s ← dropPrefix? "line".toList s
  let s ← skipSome s
  let (number, s) ← digits? s
  if (skip s).isEmpty then
    return ⟨number, none⟩
  else
    let s ← skipSome s
    let (file, s) ← fileName? s
    if (skip s).isEmpty then some ⟨number, some file⟩ else none

/- The marker `# NUMBER "FILE"` with numbers behind it. -/
def plain? (s : List Char) : Option Marker := do
  let s ← afterHash s
  let (number, s) ← digits? s
  let s ← skipSome s
  let (file, s) ← fileName? s
  if (s.head?.all isBlank) ∧ (words s).all (·.all isDigit) then
    some ⟨number, some file⟩
  else
    none

/- The marker that a line is. -/
def read? (s : List Char) : Option Marker :=
  (directive? s).or (plain? s)

/- The number of a marker, if it fits 64 bits. -/
def value? (m : Marker) : Option Nat :=
  if m.number.all Char.isDigit then
    let n := m.number.foldl
      (fun n c => 10 * n + (c.toNat - '0'.toNat)) 0
    if n < Nat.pow 2 64 then some n else none
  else
    none

end Marker

------------------------------------------------------------
-- Line Maps
------------------------------------------------------------

/- Where the lines of a text come from. -/
structure LineMap where
  /- The lines from which another location counts on, in order. -/
  beginnings : List (Nat × Location)
  lineCount : Nat
  deriving DecidableEq, Repr, Inhabited

namespace LineMap

/-
  The beginnings that the markers of some lines make; `next` is
  the line behind the first one, `current` the last file named.
-/
def beginningsFrom (current : Path) (next : Nat) :
    List (List Char) → List (Nat × Location)
  | [] => []
  | line :: rest =>
      match Marker.read? line with
      | none => beginningsFrom current (next + 1) rest
      | some m =>
          match m.value? with
          | none => beginningsFrom current (next + 1) rest
          | some n =>
              let file :=
                (m.file.map fun f => ⟨String.ofList f⟩).getD current
              (next, Location.make file n) ::
                beginningsFrom file (next + 1) rest

/- The map of a text that is known under a path. -/
def ofText (path : Path) (text : String) : LineMap :=
  let lines := foldContinuations text
  { beginnings := (1, .make path 1) :: beginningsFrom path 2 lines
    lineCount := lines.length }

/- Where a line comes from. -/
def locate (m : LineMap) (line : Nat) : Option Location :=
  if line = 0 ∨ line > max m.lineCount 1 then
    none
  else
    (m.beginnings.filter (·.1 ≤ line)).getLast?.map
      fun (start, location) =>
        ⟨location.file, location.line + line - start⟩

end LineMap

end Variability
