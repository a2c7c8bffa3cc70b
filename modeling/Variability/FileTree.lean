import Variability.Dict
import Variability.Path
import Variability.Text.Utf8

/-
  A tree of files, directories and symbolic links.

  A path is followed name by name. A link is replaced by its
  target, seen from the directory that holds it; `..` leads to
  the parent of the directory that was reached.

  Main definitions:
    * `FileTree`
    * `FileTree.resolve`
    * `FileTree.read`
    * `FileTree.below`
    * `FileTree.listing`
-/

namespace Variability

------------------------------------------------------------
-- Trees
------------------------------------------------------------

/- What a name in a directory stands for. -/
inductive Entry where
  | file (content : List UInt8)
  | directory
  | link (target : String)
  deriving DecidableEq, Repr, Inhabited

/- Why a file operation fails. -/
inductive FileError where
  | notFound
  | isADirectory
  | notADirectory
  | alreadyExists
  | invalidInput
  | invalidData
  | filesystemLoop
  deriving DecidableEq, Repr

namespace FileError

/- The message of a failure. -/
def message : FileError → String
  | .notFound => "No such file or directory (os error 2)"
  | .isADirectory => "Is a directory (os error 21)"
  | .notADirectory => "Not a directory (os error 20)"
  | .alreadyExists => "File exists (os error 17)"
  | .invalidInput => "Invalid argument (os error 22)"
  | .invalidData => "stream did not contain valid UTF-8"
  | .filesystemLoop =>
      "Too many levels of symbolic links (os error 40)"

end FileError

/- The names that lead from the root to an entry. -/
abbrev Names := List String

/- The entries by their names from the root, which is not listed. -/
structure FileTree where
  entries : Dict Names Entry := []
  /- The directory that relative paths start from. -/
  current : Names := []
  deriving DecidableEq, Repr

instance : Inhabited FileTree := ⟨{}⟩

namespace FileTree

/- The entry that some names lead to. -/
def entry? (t : FileTree) (names : Names) : Option Entry :=
  if names = [] then some .directory else Dict.find? names t.entries

------------------------------------------------------------
-- Following Paths
------------------------------------------------------------

/- Where a path leads. -/
inductive Place where
  | found (names : Names) (entry : Entry)
  /- A name that is free, in a directory that is there. -/
  | vacant (names : Names)
  deriving DecidableEq, Repr

/-
  The steps of a path. A slash at the end asks for a directory,
  which is what the step to the same place does.
-/
def stepsOf (text : String) : List String :=
  let parts := Path.splitSlash text.toList
  let names := (parts.filter (!·.isEmpty)).map String.ofList
  if parts.getLast? = some [] then names ++ ["."] else names

/- How many links may be followed on one way. -/
def maxLinks : Nat := 40

/-
  Follow steps from a directory, with at most `links` links on
  the way. The last one is followed only if `follow` says so.
-/
def walk
    (t : FileTree)
    (follow : Bool)
    (links : Nat)
    (here : Names)
    (steps : List String) :
    Except FileError Place :=
  match steps with
  | [] => .ok (.found here .directory)
  | "." :: rest => walk t follow links here rest
  | ".." :: rest => walk t follow links here.dropLast rest
  | name :: rest =>
      match t.entry? (here ++ [name]) with
      | none =>
          if rest.isEmpty then
            .ok (.vacant (here ++ [name]))
          else
            .error .notFound
      | some .directory => walk t follow links (here ++ [name]) rest
      | some (.file content) =>
          if rest.isEmpty then
            .ok (.found (here ++ [name]) (.file content))
          else
            .error .notADirectory
      | some (.link target) =>
          if rest.isEmpty ∧ !follow then
            .ok (.found (here ++ [name]) (.link target))
          else
            match links with
            | 0 => .error .filesystemLoop
            | links + 1 =>
                walk t follow links
                  (if target.startsWith "/" then [] else here)
                  (stepsOf target ++ rest)
  termination_by (links, steps.length)

/- Where a path leads to, starting at the current directory. -/
def resolve
    (t : FileTree)
    (follow : Bool)
    (p : Path) :
    Except FileError Place :=
  if p.text.isEmpty then
    .error .notFound
  else if p.text.contains '\x00' then
    .error .invalidInput
  else
    t.walk follow maxLinks
      (if p.isAbsolute then [] else t.current)
      (stepsOf p.text)

------------------------------------------------------------
-- Looking
------------------------------------------------------------

/- The entry at the end of a path, links followed. -/
def status (t : FileTree) (p : Path) : Except FileError Entry :=
  match t.resolve true p with
  | .ok (.found _ entry) => .ok entry
  | .ok (.vacant _) => .error .notFound
  | .error e => .error e

/- Whether a path leads to anything. -/
def exists? (t : FileTree) (p : Path) : Bool :=
  (t.status p).toOption.isSome

/- Whether a path leads to a file. -/
def isFile (t : FileTree) (p : Path) : Bool :=
  match t.status p with
  | .ok (.file _) => true
  | _ => false

/- Whether a path leads to a directory. -/
def isDirectory (t : FileTree) (p : Path) : Bool :=
  match t.status p with
  | .ok .directory => true
  | _ => false

/- The bytes of a file. -/
def read (t : FileTree) (p : Path) : Except FileError (List UInt8) :=
  match t.status p with
  | .ok (.file content) => .ok content
  | .ok _ => .error .isADirectory
  | .error e => .error e

/- The text of a file, which must be free of mistakes. -/
def readText (t : FileTree) (p : Path) : Except FileError String := do
  match Utf8.decode? (← t.read p) with
  | some text => return text
  | none => throw .invalidData

/- The text of a file with a mark for each mistake. -/
def readLossy (t : FileTree) (p : Path) : Except FileError String := do
  return Utf8.decodeLossy (← t.read p)

/-
  Everything below a directory, by the names that lead from it;
  a directory comes before what it holds.
-/
def below (t : FileTree) (directory : Names) : List (Names × Entry) :=
  t.entries.filterMap fun (names, entry) =>
    if directory.isPrefixOf names ∧ names ≠ directory then
      some (names.drop directory.length, entry)
    else
      none

/- Everything below a path, if it leads to a directory. -/
def listing (t : FileTree) (p : Path) : List (String × Entry) :=
  match t.resolve true p with
  | .ok (.found names .directory) =>
      (t.below names).map fun (names, entry) =>
        ("/".intercalate names, entry)
  | _ => []

end FileTree

end Variability
