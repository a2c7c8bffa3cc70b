import Variability.FileTree.Edit

/-
  Copying whole trees of files.

  Main definitions:
    * `FileTree.copyTree`
-/

namespace Variability

namespace FileTree

/- The directories of version control, which are not copied. -/
def ignoredName : String := ".git"

/- A failure at a path. -/
abbrev AtPath := ExceptT (Path × FileError) (StateM FileTree)

/- Blame a path for a failure. -/
def blame {α : Type} (p : Path) (x : InTree α) : AtPath α :=
  fun t =>
    match x t with
    | (.ok a, t) => (.ok a, t)
    | (.error e, t) => (.error (p, e), t)

/- Copy one entry, whose content is the one found at the source. -/
def copyEntry (entry : Entry) (source target : Path) : AtPath Unit :=
  match entry with
  | .directory => blame target (makeDirectories target)
  | .link destination => blame target (makeLink target destination)
  | .file _ => blame target (copyFile source target)

/- Copy entries, given by the names that lead to them. -/
def copyEntries
    (source target : Path) :
    List (Names × Entry) → AtPath Unit
  | [] => pure ()
  | (names, entry) :: rest => do
      let relative : Path := ⟨"/".intercalate names⟩
      copyEntry entry (source.join relative) (target.join relative)
      copyEntries source target rest

/- What lies below a directory, version control left out. -/
def entriesToCopy (t : FileTree) (directory : Names) :
    List (Names × Entry) :=
  (t.below directory).filter fun (names, _) =>
    !names.contains ignoredName

/- The last name of a path, or all of it if it has none. -/
def lastName (p : Path) : String :=
  p.fileName?.getD p.text

/-
  Copy a file or a directory and all below it. Links are copied
  as links, except that a link given as the source has to lead
  somewhere.
-/
def copyTree (source target : Path) : AtPath Unit := do
  let t ← get
  match t.resolve false source with
  | .error e => throw (source, e)
  | .ok (.vacant _) => throw (source, .notFound)
  | .ok (.found names entry) =>
      if let (.link _, .error e) := (entry, t.status source) then
        throw (source, e)
      if lastName source = ignoredName then
        pure ()
      else
        copyEntry entry source (target.join ⟨""⟩)
        match entry with
        | .directory =>
            copyEntries source target (t.entriesToCopy names)
        | _ => pure ()

end FileTree

end Variability
