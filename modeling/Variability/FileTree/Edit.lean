import Variability.FileTree

/-
  Changing a tree of files.

  An operation that fails half-way leaves what it did before.

  Main definitions:
    * `InTree`
    * `FileTree.write`
    * `FileTree.makeDirectories`
    * `FileTree.copyFile`
    * `FileTree.place`
-/

namespace Variability

/- A computation that changes a tree and may fail on the way. -/
abbrev InTree := ExceptT FileError (StateM FileTree)

namespace FileTree

/- Put an entry under some names. -/
def put (names : Names) (entry : Entry) : InTree Unit :=
  modify fun t =>
    { t with entries := Dict.insert names entry t.entries }

/- A path without the slashes at its end. -/
def withoutSlash (p : Path) : Path :=
  ⟨String.ofList
    (p.text.toList.reverse.dropWhile (· = '/')).reverse⟩

/- Whether a path ends in a slash. -/
def endsInSlash (p : Path) : Bool :=
  p.text.toList.getLast? == some '/'

/-
  The names of the file that a path leads to, or would lead to
  if it was there.
-/
def fileToWrite (t : FileTree) (p : Path) : Except FileError Names :=
  match t.resolve true p with
  | .ok (.found names (.file _)) => .ok names
  | .ok (.found _ _) => .error .isADirectory
  | .ok (.vacant names) => .ok names
  | .error .notFound =>
      match endsInSlash p, t.resolve true (withoutSlash p) with
      | true, .ok (.vacant _) => .error .isADirectory
      | _, _ => .error .notFound
  | .error e => .error e

/- Write a file, in place of its content if it is there. -/
def write (p : Path) (content : List UInt8) : InTree Unit := do
  let names ← liftExcept (fileToWrite (← get) p)
  put names (.file content)
  where
    /- A failure of the computation. -/
    liftExcept {α : Type} (e : Except FileError α) : InTree α :=
      match e with
      | .ok a => pure a
      | .error e => throw e

/- Make a directory under a name that must be free. -/
def makeDirectory (p : Path) : InTree Unit := do
  match (← get).resolve false (withoutSlash p) with
  | .ok (.vacant names) => put names .directory
  | .ok (.found _ _) => throw .alreadyExists
  | .error e => throw e

/- Go on if a path leads to a directory in spite of a failure. -/
def unlessDirectory (p : Path) (e : FileError) : InTree Unit := do
  if (← get).isDirectory p then pure () else throw e

/- Make a directory and those above it, `depth` of them at most. -/
def makeDirectoriesWithin : (depth : Nat) → Path → InTree Unit
  | 0, _ => throw .notFound
  | depth + 1, p =>
      if p.text.isEmpty then
        pure ()
      else
        tryCatch (makeDirectory p) fun e =>
          match e, p.parent? with
          | .notFound, some above => do
              makeDirectoriesWithin depth above
              tryCatch (makeDirectory p) (unlessDirectory p)
          | e, _ => unlessDirectory p e

/- Make a directory and those above it that are not there. -/
def makeDirectories (p : Path) : InTree Unit :=
  makeDirectoriesWithin (p.components.length + 1) p

/-
  Copy a file. The target is emptied before the source is read,
  so a file copied onto itself is empty then.
-/
def copyFile (source target : Path) : InTree Unit := do
  match (← get).status source with
  | .error e => throw e
  | .ok (.file _) =>
      write target []
      match (← get).read source with
      | .error e => throw e
      | .ok content => write target content
  | .ok _ => throw .invalidInput

/- Make a symbolic link under a name that must be free. -/
def makeLink (p : Path) (target : String) : InTree Unit := do
  match (← get).resolve false (withoutSlash p) with
  | .ok (.vacant names) =>
      if endsInSlash p then
        throw .notFound
      else
        put names (.link target)
  | .ok (.found _ _) => throw .alreadyExists
  | .error e => throw e

/- Make an entry and the directories above it. -/
def place (p : Path) (entry : Entry) : InTree Unit := do
  if let some directory := p.parent? then
    makeDirectories directory
  match entry with
  | .directory => makeDirectories p
  | .link target => makeLink p target
  | .file content => write p content

/- Remove a file or a link. -/
def remove (p : Path) : InTree Unit := do
  match (← get).resolve false p with
  | .ok (.found _ .directory) => throw .isADirectory
  | .ok (.found names _) =>
      modify fun t =>
        { t with entries := t.entries.filter (·.1 ≠ names) }
  | .ok (.vacant _) => throw .notFound
  | .error e => throw e

end FileTree

end Variability
